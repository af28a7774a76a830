/-
WebSocket/Proofs/Client/Chunking.lean

How a stream is cut into pieces cannot be seen.

Design.  `feed` hands one piece to a client and calls its handler once, so a run in which
octets arrive and the handler is called can be compared with a client that is fed piece
by piece.  What is conserved by such a run is `finish`, the client that comes out when it
is fed all that still waits: a call feeds some of the pieces itself and leaves the others
(`alike_finish_call`), and what arrives only joins those that wait.  So when a run has
come to an end, its client is alike to one that was fed everything.

Two pieces can then be joined (`alike_feed_append`), for a handshake as well as for a channel and
also where the response ends within the first of them: what is left of it is read by the
channel, and the second piece is read behind it.  In the end every client is alike to one
that was fed the whole stream in one piece.
-/
import WebSocket.Proofs.Client.Alike
import WebSocket.Proofs.Extension.MaskBlind
import WebSocket.Proofs.Handshake.Outcome

namespace WebSocket.Client

variable {R : UInt32 → UInt32 → Prop} {σ ε : Type}

/-- The handler asks for what arrives. -/
def Reads (c : Client σ ε) : Prop :=
  match c.handler with
  | some (.upgrade u) => ∃ session, u.state = .reading session
  | some (.connection k) => k.closed = false
  | none => False

variable {c c' : Client σ ε}

instance (c : Client σ ε) : Decidable c.Reads :=
  match h : c.handler with
  | none => isFalse (by simp [Reads, h])
  | some (.connection k) => decidable_of_iff (k.closed = false) (by simp [Reads, h])
  | some (.upgrade u) =>
    match hs : u.state with
    | .reading session => isTrue (by simp [Reads, h, hs])
    | .connecting _ | .sending _ | .done => isFalse (by simp [Reads, h, hs])

theorem Alike.reads_iff (h : c.Alike R c') : c.Reads ↔ c'.Reads := by
  obtain ⟨-, hhandler⟩ := h
  unfold Reads
  generalize c.handler = handler at hhandler ⊢
  generalize c'.handler = handler' at hhandler ⊢
  cases hhandler with
  | none => rfl
  | upgrade u => rfl
  | done hu hu' => simp [hu, hu']
  | connection hk =>
    cases hk
    rfl

/-- What waits at the endpoint is not compared. -/
theorem alike_with_input (he : c.link.egress = []) (input : List Inbound) :
    Alike Eq { c with input } c :=
  ⟨Link.alike_refl he, .refl _⟩

variable [Extension ε] [Session σ]

theorem call_of_not_reads (h : ¬c.Reads) : c.call .readable = c := by
  rcases hh : c.handler with - | u | k
  · exact call_of_none hh _
  · refine call_of_not_reading hh fun session hs => h ?_
    simp [Reads, hh, hs]
  · have hk : k.closed := by simpa [Reads, hh] using h
    rw [call_of_connection hh, callConnection, Channel.react, Channel.readable_of_closed hk]
    exact congrArg (fun handler => { c with handler }) hh.symm

/-- Behind a failure nobody reads any more. -/
theorem not_reads_follow_fail (u : Handshake.Upgrade σ ε)
    (host : Host ε) (e : Handshake.Error) : ¬(follow (u.fail host e)).Reads := by
  rintro ⟨session, h⟩
  cases h

/-! ### One piece after the other -/

/-- Hands one piece to a client, and calls its handler once. -/
def feed (c : Client σ ε) (piece : Inbound) : Client σ ε :=
  call { c with input := [piece] } .readable

theorem Alike.feed (hR : Extension.Respects ε R) (h : c.Alike R c') (piece : Inbound) :
    (c.feed piece).Alike R (c'.feed piece) := by
  have hinput : Alike R { c with input := [piece] } { c' with input := [piece] } :=
    ⟨h.link, h.handler⟩
  exact (hinput.call_readable hR rfl).1

theorem feed_of_reading {u : Handshake.Upgrade σ ε} {session : σ}
    (hh : c.handler = some (.upgrade u)) (hs : u.state = .reading session) (piece : Inbound) :
    c.feed piece = follow (u.conclude { c.toHost with input := [piece] } session
      (Handshake.Upgrade.read u.reader c.link [piece])) :=
  call_of_reading (c := { c with input := [piece] }) hh hs

theorem Alike.foldl_feed (hR : Extension.Respects ε R) (h : c.Alike R c')
    (pieces : List Inbound) :
    (pieces.foldl Client.feed c).Alike R (pieces.foldl Client.feed c') := by
  induction pieces generalizing c c' with
  | nil => exact h
  | cons piece pieces ih => exact ih (h.feed hR piece)

theorem egress_call (he : c.link.egress = []) : (c.call .readable).link.egress = [] :=
  ((alike_refl he).call_readable Extension.respects_eq rfl).1.link.egress_left

theorem egress_feed (he : c.link.egress = []) (piece : Inbound) :
    (c.feed piece).link.egress = [] :=
  ((alike_refl he).feed Extension.respects_eq piece).link.egress_left

/-- A client that does not read does not change when it is fed. -/
theorem alike_feed_of_not_reads (he : c.link.egress = []) (h : ¬c.Reads) (piece : Inbound) :
    (c.feed piece).Alike Eq c := by
  rw [feed, call_of_not_reads (c := { c with input := [piece] }) h]
  exact alike_with_input he _

theorem alike_foldl_feed_of_not_reads (he : c.link.egress = []) (h : ¬c.Reads)
    (pieces : List Inbound) : (pieces.foldl feed c).Alike Eq c := by
  induction pieces with
  | nil => exact alike_refl he
  | cons piece pieces ih =>
    exact ((alike_feed_of_not_reads he h piece).foldl_feed Extension.respects_eq pieces).trans ih

/-! ### What a call takes -/

/-- The client whose handler is this channel. -/
def onChannel (c : Client σ ε) (channel : Channel σ ε) : Client σ ε :=
  { c with link := channel.link, handler := some (.connection channel.toConnection) }

omit [Extension ε] [Session σ] in
theorem alike_onChannel {channel channel' : Channel σ ε} (h : channel.Alike R channel')
    (c c' : Client σ ε) (input input' : List Inbound) :
    Alike R { c.onChannel channel with input } { c'.onChannel channel' with input := input' } := by
  obtain ⟨hk, hlink⟩ := Channel.alike_iff.1 h
  exact ⟨hlink, .connection hk⟩

theorem call_onChannel (c : Client σ ε) (channel : Channel σ ε) (input : List Inbound) :
    call { c.onChannel channel with input } .readable
      = { c.onChannel (channel.readable input).1 with input := (channel.readable input).2 } :=
  rfl

omit [Extension ε] [Session σ] in
/-- A client reads either the response or what a channel decodes. -/
theorem Reads.elim (h : c.Reads) :
    (∃ u session, c.handler = some (.upgrade u) ∧ u.state = .reading session)
      ∨ ∃ channel : Channel σ ε, channel.closed = false ∧ c = c.onChannel channel := by
  unfold Reads at h
  split at h
  · next u hh =>
    obtain ⟨session, hs⟩ := h
    exact .inl ⟨u, session, hh, hs⟩
  · next k hh =>
    exact .inr ⟨{ k with link := c.link }, h, congrArg (fun handler => { c with handler }) hh⟩
  · exact h.elim

/-- A call that finds nothing cannot be seen. -/
theorem alike_poll (he : c.link.egress = []) :
    (call { c with input := [] } .readable).Alike Eq c
      ∧ (call { c with input := [] } .readable).input = [] := by
  by_cases hc : c.Reads
  · have hlink := (Link.alike_refl he).record_left (e := .fill) rfl
    rcases hc.elim with ⟨u, session, hh, hs⟩ | ⟨channel, hclosed, hk⟩
    · rw [call_of_reading (c := { c with input := [] }) hh hs]
      have hu : { u with state := .reading session } = u := by rw [← hs]
      refine ⟨⟨hlink.record_left (e := .fillInterested) rfl, ?_⟩, rfl⟩
      show Handler.Alike (some (.upgrade { u with state := .reading session })) c.handler
      rw [hu, hh]
      exact .upgrade u
    · rw [hk] at he ⊢
      rw [call_onChannel, Channel.readable_nil hclosed]
      have halike : channel.Alike Eq channel := .of_link (Link.alike_refl he)
      exact ⟨alike_onChannel (halike.record_left rfl).await_left .., rfl⟩
  · rw [call_of_not_reads (c := { c with input := [] }) hc]
    exact ⟨alike_with_input he _, rfl⟩

/-- What a call does with the first piece that waits: the handler goes on reading as
it does behind this piece, or it takes only this piece, or it stops reading. -/
inductive Takes (c : Client σ ε) (piece : Inbound) (pieces : List Inbound) : Prop
  | more (c₁ : Client σ ε) (h : (c.feed piece).Alike Eq c₁)
      (hcall : call { c with input := piece :: pieces } .readable
        = call { c₁ with input := pieces } .readable)
  | one (h : (call { c with input := piece :: pieces } .readable).Alike Eq (c.feed piece))
      (hi : (call { c with input := piece :: pieces } .readable).input = pieces)
  | last (h : (call { c with input := piece :: pieces } .readable).Alike Eq (c.feed piece))
      (hr : ¬(c.feed piece).Reads)

theorem takes_of_call_eq (c₁ : Client σ ε) (he : c₁.link.egress = []) {piece : Inbound}
    (h : ∀ pieces, call { c with input := piece :: pieces } .readable
      = call { c₁ with input := pieces } .readable) (pieces : List Inbound) :
    c.Takes piece pieces := by
  refine .more c₁ ?_ (h pieces)
  rw [feed, h []]
  exact (alike_poll he).1

/-- A channel decodes a piece behind what it has in its buffer, and goes on reading. -/
theorem call_onChannel_data {channel : Channel σ ε} (hc : channel.closed = false) {octets : Bytes}
    (hne : octets ≠ []) (c : Client σ ε) (pieces : List Inbound) :
    call { c.onChannel channel with input := .data octets :: pieces } .readable
      = call { c.onChannel ((channel.record .fill).process (channel.buffer.toList ++ octets)) with
          input := pieces } .readable := by
  have hnext : Channel.proceed { channel.record .fill with buffer := channel.buffer ++ octets }
      = (channel.record .fill).process (channel.buffer.toList ++ octets) := by
    rw [Channel.proceed_eq_process, Array.toList_appendList]
    exact Channel.process_with_buffer ..
  rw [call_onChannel, call_onChannel, Channel.readable_data hc hne, hnext]

theorem takes_connection {channel : Channel σ ε} (he : channel.link.egress = [])
    (hc : channel.closed = false) (piece : Inbound) (pieces : List Inbound) :
    (c.onChannel channel).Takes piece pieces := by
  have halike : channel.Alike Eq channel := .of_link (Link.alike_refl he)
  have hfill := halike.record .fill
  cases piece with
  | data octets =>
    by_cases hne : octets = []
    · subst hne
      refine .one ?_ ?_ <;> simp only [feed, call_onChannel, Channel.readable_data_nil hc]
      exact alike_onChannel hfill.await ..
    · have hnext := hfill.process Extension.respects_eq (channel.buffer.toList ++ octets)
      exact takes_of_call_eq _ (Channel.alike_iff.1 hnext).2.egress_left
        (call_onChannel_data hc hne c) pieces
  | empty =>
    refine .one ?_ ?_ <;> simp only [feed, call_onChannel, Channel.readable_empty hc]
    exact alike_onChannel hfill.await ..
  | ended =>
    refine .last ?_ ?_ <;> simp only [feed, call_onChannel, Channel.readable_ended hc]
    · exact alike_onChannel hfill.shutdown ..
    · simp [Reads, onChannel, Channel.shutdown]
  | failed message =>
    refine .one ?_ ?_ <;> simp only [feed, call_onChannel, Channel.readable_failed hc]
    exact alike_onChannel hfill.shutdown ..

/-- Where reading stops behind the first piece, the pieces behind it are left. -/
theorem takes_of_read {u : Handshake.Upgrade σ ε} {session : σ}
    (hh : c.handler = some (.upgrade u)) (hs : u.state = .reading session) {piece : Inbound}
    {pieces : List Inbound}
    (hread : (Handshake.Upgrade.read u.reader c.link (piece :: pieces)).Alike Eq
      (Handshake.Upgrade.read u.reader c.link [piece]))
    (hrest : (Handshake.Upgrade.read u.reader c.link (piece :: pieces)).input = pieces) :
    c.Takes piece pieces := by
  refine .one ?_ ?_
  · rw [call_of_reading (c := { c with input := piece :: pieces }) hh hs, feed_of_reading hh hs]
    exact Handshake.Upgrade.alike_follow_conclude Extension.respects_eq u session _ _ hread
  · rw [call_of_reading (c := { c with input := piece :: pieces }) hh hs,
      Handshake.Upgrade.input_follow_conclude]
    exact hrest

theorem takes_reading (he : c.link.egress = []) {u : Handshake.Upgrade σ ε} {session : σ}
    (hh : c.handler = some (.upgrade u)) (hs : u.state = .reading session) (piece : Inbound)
    (pieces : List Inbound) : c.Takes piece pieces := by
  have hfill : (c.link.record .fill).Alike Eq (c.link.record .fill) :=
    (Link.alike_refl he).record (.same .fill)
  cases piece with
  | data octets =>
    by_cases hne : octets = []
    · subst hne
      exact takes_of_read hh hs ⟨hfill, rfl, fun _ _ => rfl⟩ rfl
    · rcases hp : (u.reader.parse octets).result with e | - | response
      · refine takes_of_read hh hs ?_ ?_ <;>
          simp only [Handshake.Upgrade.read_of_error hne hp]
        exact ⟨hfill, rfl, fun _ _ => rfl⟩
      · -- The reader keeps the piece, and goes on with what is behind it.
        let u₁ := { u with reader := (u.reader.parse octets).reader }
        refine takes_of_call_eq
          { c with link := c.link.record .fill, handler := some (.upgrade u₁) }
          hfill.egress_left (fun pieces => ?_) pieces
        rw [call_of_reading (c := { c with input := .data octets :: pieces }) hh hs,
          Handshake.Upgrade.read_of_more hne hp]
        have hcall := call_of_reading (c := { c with
          link := c.link.record .fill, input := pieces, handler := some (.upgrade u₁) }) rfl hs
        exact hcall.symm
      · refine takes_of_read hh hs ?_ ?_ <;>
          simp only [Handshake.Upgrade.read_of_response hne hp]
        exact ⟨hfill, rfl, fun _ _ => rfl⟩
  | empty => exact takes_of_read hh hs ⟨hfill, rfl, fun _ _ => rfl⟩ rfl
  | ended =>
    refine .last ?_ ?_
    · rw [call_of_reading (c := { c with input := .ended :: pieces }) hh hs,
        feed_of_reading hh hs]
      exact Handshake.Upgrade.alike_follow_conclude Extension.respects_eq u session _ _
        ⟨hfill, rfl, fun _ _ => rfl⟩
    · rw [feed_of_reading hh hs]
      exact not_reads_follow_fail _ _ .closed
  | failed message => exact takes_of_read hh hs ⟨hfill, rfl, fun _ _ => rfl⟩ rfl

theorem takes (he : c.link.egress = []) (hc : c.Reads) (piece : Inbound) (pieces : List Inbound) :
    c.Takes piece pieces := by
  rcases hc.elim with ⟨u, session, hh, hs⟩ | ⟨channel, hclosed, hk⟩
  · exact takes_reading he hh hs piece pieces
  · rw [hk] at he ⊢
    exact takes_connection he hclosed piece pieces

/-- The client that comes out when it is fed all that waits. -/
def finish (c : Client σ ε) : Client σ ε :=
  c.input.foldl feed c

omit [Extension ε] [Session σ] in
theorem egress_with_input (he : c.link.egress = []) (input : List Inbound) :
    ({ c with input } : Client σ ε).link.egress = [] :=
  he

theorem alike_finish_pieces (he : c.link.egress = []) (pieces : List Inbound) :
    (call { c with input := pieces } .readable).finish.Alike Eq (pieces.foldl feed c) := by
  -- Where the handler goes on reading, the call is one for the pieces behind the first, by
  -- a client that has been fed the first, and `ih` covers it.
  induction pieces generalizing c with
  | nil =>
    obtain ⟨halike, hinput⟩ := alike_poll he
    rw [finish, hinput]
    exact halike
  | cons piece pieces ih =>
    have hfeed := egress_feed he piece
    have hcall := egress_call (egress_with_input he (piece :: pieces))
    by_cases hc : c.Reads
    · cases takes he hc piece pieces with
      | more c₁ h hmore =>
        rw [hmore, List.foldl_cons]
        exact (ih h.link.egress_right).trans (h.symm.foldl_feed Extension.respects_eq pieces)
      | one h hi =>
        rw [finish, hi]
        exact h.foldl_feed Extension.respects_eq pieces
      | last h hr =>
        have hr' : ¬(call { c with input := piece :: pieces } .readable).Reads := by
          rwa [h.reads_iff]
        exact ((alike_foldl_feed_of_not_reads hcall hr' _).trans h).trans
          (alike_foldl_feed_of_not_reads hfeed hr pieces).symm
    · rw [call_of_not_reads (c := { c with input := piece :: pieces }) hc]
      exact (alike_with_input he _).foldl_feed Extension.respects_eq _

/-- A call does not change what comes out in the end. -/
theorem alike_finish_call (he : c.link.egress = []) :
    (c.call .readable).finish.Alike Eq c.finish :=
  alike_finish_pieces he c.input

/-! ### Two pieces in one -/

/-- A piece without octets cannot be seen. -/
theorem alike_feed_of_empty (he : c.link.egress = []) {piece : Inbound}
    (hp : piece = .empty ∨ piece = .data []) : (c.feed piece).Alike Eq c := by
  by_cases hc : c.Reads
  · have hpoll := (alike_poll he).1
    rcases hc.elim with ⟨u, session, hh, hs⟩ | ⟨channel, hclosed, hk⟩
    · rw [call_of_reading (c := { c with input := [] }) hh hs] at hpoll
      rw [feed_of_reading hh hs]
      rcases hp with rfl | rfl <;> exact hpoll
    · rw [hk] at hpoll ⊢
      rw [call_onChannel, Channel.readable_nil hclosed] at hpoll
      rcases hp with rfl | rfl
      · rw [feed, call_onChannel, Channel.readable_empty hclosed]
        exact hpoll
      · rw [feed, call_onChannel, Channel.readable_data_nil hclosed]
        exact hpoll
  · exact alike_feed_of_not_reads he hc piece

theorem alike_feed_onChannel {channel : Channel σ ε} (he : channel.link.egress = [])
    (hc : channel.closed = false) {octets : Bytes} (hne : octets ≠ []) (c : Client σ ε) :
    ((c.onChannel channel).feed (.data octets)).Alike Eq
      (c.onChannel (channel.process (channel.buffer.toList ++ octets))) := by
  have halike : channel.Alike Eq channel := .of_link (Link.alike_refl he)
  have hnext := (halike.record_left (e := .fill) rfl).process Extension.respects_eq
    (channel.buffer.toList ++ octets)
  rw [feed, call_onChannel_data hc hne]
  exact (alike_poll (Channel.alike_iff.1 hnext).2.egress_left).1.trans
    (alike_onChannel hnext c c c.input c.input)

/-- A piece that arrives behind what a channel has read is read as if it had been there
before. -/
theorem alike_feed_process {channel : Channel σ ε} (he : channel.link.egress = [])
    (front : Bytes) {back : Bytes} (hne : back ≠ []) (c : Client σ ε) :
    ((c.onChannel (channel.process front)).feed (.data back)).Alike Eq
      (c.onChannel (channel.process (front ++ back))) := by
  have halike : channel.Alike Eq channel := .of_link (Link.alike_refl he)
  have hfront := halike.process Extension.respects_eq front
  have he' := (Channel.alike_iff.1 hfront).2.egress_left
  cases hc : (channel.process front).closed with
  | true =>
    obtain ⟨buffer, hall⟩ := Channel.process_append_of_closed hc back
    rw [hall]
    refine (alike_feed_of_not_reads he' ?_ _).trans
      (alike_onChannel (hfront.of_closed hc buffer) c c c.input c.input)
    simp [Reads, onChannel, hc]
  | false =>
    rw [Channel.process_append hc]
    exact alike_feed_onChannel he' hc hne c

/-- What is left behind the response is the first that the channel reads. -/
theorem alike_follow_handOver_process (u : Handshake.Upgrade σ ε) (host : Host ε)
    (he : host.link.egress = []) (session : σ) (response : Handshake.Response) (c : Client σ ε) :
    ∃ channel : Channel σ ε, channel.link.egress = [] ∧ ∀ leftover,
      (follow (u.handOver host session response leftover)).Alike Eq
        (c.onChannel (channel.process leftover)) := by
  let built := Channel.connect (host.link.record (.upgraded response)) session
    (u.registry.instantiate response.extensions)
  let channel : Channel σ ε := { built with link := built.link.record .replaceHandler }
  refine ⟨channel, he, fun leftover => ?_⟩
  have hproceed : Channel.proceed { channel with buffer := leftover.toArray }
      = channel.process leftover := by
    rw [Channel.proceed_eq_process]
    exact Channel.process_with_buffer ..
  have halike : channel.Alike Eq channel := .of_link (Link.alike_refl he)
  have hnext : (Channel.proceed { channel with buffer := leftover.toArray }).await.Alike Eq
      (channel.process leftover) := by
    rw [hproceed]
    exact (halike.process Extension.respects_eq leftover).await_left
  exact alike_onChannel hnext { (u.handOver host session response leftover).host with
    handler := none } c _ c.input

omit [Extension ε] in
/-- Where the reader wants more, it reads the next piece as if both were one. -/
theorem alike_read_append {reader : Handshake.HeadReader} {front back : Bytes}
    (hp : (reader.parse front).result = .ok none) (hfront : front ≠ []) (hback : back ≠ [])
    {link link' : Link ε} (h : link.Alike Eq link') :
    (Handshake.Upgrade.read (reader.parse front).reader link [.data back]).Alike Eq
      (Handshake.Upgrade.read reader link' [.data (front ++ back)]) := by
  obtain ⟨hresult, hok⟩ := Handshake.HeadReader.parse_append_of_more hp back
  have hall : front ++ back ≠ [] := by simp [hfront]
  have hfill := h.record (.same .fill)
  rcases hb : ((reader.parse front).reader.parse back).result with e | - | response
  · rw [Handshake.Upgrade.read_of_error hback hb,
      Handshake.Upgrade.read_of_error hall (hresult.trans hb)]
    exact ⟨hfill, rfl, nofun⟩
  · rw [Handshake.Upgrade.read_of_more hback hb,
      Handshake.Upgrade.read_of_more hall (hresult.trans hb), (hok _ (hresult.trans hb)).1]
    exact (Handshake.Upgrade.alike_read _ hfill []).1
  · rw [Handshake.Upgrade.read_of_response hback hb,
      Handshake.Upgrade.read_of_response hall (hresult.trans hb), (hok _ (hresult.trans hb)).2]
    exact ⟨hfill, rfl, fun _ _ => ((hok _ (hresult.trans hb)).1).symm⟩

section Reading

variable {u : Handshake.Upgrade σ ε} {session : σ} {front back : Bytes}

/-- The first piece is refused, and then nobody reads any more. -/
theorem alike_feed_append_of_error (he : c.link.egress = [])
    (hh : c.handler = some (.upgrade u)) (hs : u.state = .reading session) (hfront : front ≠ [])
    {e : Handshake.Error} (hp : (u.reader.parse front).result = .error e) (back : Bytes) :
    ((c.feed (.data front)).feed (.data back)).Alike Eq (c.feed (.data (front ++ back))) := by
  have herror := Handshake.HeadReader.parse_append_of_error hp back
  have hall : front ++ back ≠ [] := by simp [hfront]
  have hone : (c.feed (.data front)).Alike Eq (c.feed (.data (front ++ back))) := by
    rw [feed_of_reading hh hs, feed_of_reading hh hs, Handshake.Upgrade.read_of_error hfront hp,
      Handshake.Upgrade.read_of_error hall herror]
    exact Handshake.Upgrade.alike_follow_conclude Extension.respects_eq u session _ _
      ⟨(Link.alike_refl he).record (.same .fill), rfl, nofun⟩
  have hreads : ¬(c.feed (.data front)).Reads := by
    rw [feed_of_reading hh hs, Handshake.Upgrade.read_of_error hfront hp]
    exact not_reads_follow_fail _ _ e
  exact (alike_feed_of_not_reads (egress_feed he _) hreads _).trans hone

/-- The reader keeps the first piece, and reads the second behind it. -/
theorem alike_feed_append_of_more (he : c.link.egress = [])
    (hh : c.handler = some (.upgrade u)) (hs : u.state = .reading session) (hfront : front ≠ [])
    (hback : back ≠ []) (hp : (u.reader.parse front).result = .ok none) :
    ((c.feed (.data front)).feed (.data back)).Alike Eq (c.feed (.data (front ++ back))) := by
  have heq := Extension.respects_eq (ε := ε)
  let u₁ := { u with reader := (u.reader.parse front).reader }
  let c₁ : Client σ ε := { c with link := c.link.record .fill, handler := some (.upgrade u₁) }
  have hone : (c.feed (.data front)).Alike Eq c₁ := by
    have hcall := call_of_reading (c := { c₁ with input := [] }) (u := u₁) rfl hs
    have hpoll := (alike_poll (c := c₁) ((Link.alike_refl he).record (.same .fill)).egress_left).1
    rw [hcall] at hpoll
    rw [feed_of_reading hh hs, Handshake.Upgrade.read_of_more hfront hp]
    exact hpoll
  have htwo : (c₁.feed (.data back)).Alike Eq (c.feed (.data (front ++ back))) := by
    have hlink := (Link.alike_refl he).record_left (e := .fill) rfl
    rw [feed_of_reading (c := c₁) (u := u₁) rfl hs, feed_of_reading hh hs]
    exact Handshake.Upgrade.alike_follow_conclude heq u session _ _
      (alike_read_append hp hfront hback hlink)
  exact (hone.feed heq _).trans htwo

/-- The response ends within the first piece, and is the same with the second behind it.
Then it is refused for both, or the channel reads what is left of the first and then the
second. -/
theorem alike_feed_append_of_response (he : c.link.egress = [])
    (hh : c.handler = some (.upgrade u)) (hs : u.state = .reading session) (hfront : front ≠ [])
    (hback : back ≠ []) {response : Handshake.Response}
    (hp : (u.reader.parse front).result = .ok (some response)) :
    ((c.feed (.data front)).feed (.data back)).Alike Eq (c.feed (.data (front ++ back))) := by
  have hresponse := Handshake.HeadReader.parse_append_of_response hp back
  have hall : front ++ back ≠ [] := by simp [hfront]
  have hp' : (u.reader.parse (front ++ back)).result = .ok (some response) := by
    rw [hresponse]
    exact hp
  have hfill : (c.link.record .fill).Alike Eq (c.link.record .fill) :=
    (Link.alike_refl he).record (.same .fill)
  let u₁ := { u with reader := (u.reader.parse front).reader }
  let host : Host ε :=
    { c.toHost with link := c.link.record .fill, input := [], pool := c.pool.acquire.release }
  rw [feed_of_reading hh hs (.data (front ++ back)),
    Handshake.Upgrade.read_of_response hall hp', hresponse]
  rcases hv : Handshake.validate u.request response with e | valid
  · have hfail : c.feed (.data front) = follow (u₁.fail host e) := by
      rw [feed_of_reading hh hs, Handshake.Upgrade.read_of_response hfront hp]
      simp only [Handshake.Upgrade.conclude, hv]
      rfl
    have hreads : ¬(c.feed (.data front)).Reads := by
      rw [hfail]
      exact not_reads_follow_fail u₁ host e
    refine (alike_feed_of_not_reads (egress_feed he _) hreads _).trans ?_
    rw [hfail]
    simp only [Handshake.Upgrade.conclude, hv]
    exact Handshake.Upgrade.alike_follow_fail hfill u₁ _ e
  · obtain ⟨channel, he', hchannel⟩ :=
      alike_follow_handOver_process u₁ host hfill.egress_left session valid c
    have hone : c.feed (.data front)
        = follow (u₁.handOver host session valid (u.reader.parse front).rest) := by
      rw [feed_of_reading hh hs, Handshake.Upgrade.read_of_response hfront hp]
      simp only [Handshake.Upgrade.conclude, hv]
      rfl
    have hboth := hchannel ((u.reader.parse front).rest ++ back)
    rw [hone]
    simp only [Handshake.Upgrade.conclude, hv]
    exact (((hchannel _).feed Extension.respects_eq _).trans
      (alike_feed_process he' _ hback c)).trans hboth.symm

theorem alike_feed_append_of_reading (he : c.link.egress = [])
    (hh : c.handler = some (.upgrade u)) (hs : u.state = .reading session) (hfront : front ≠ [])
    (hback : back ≠ []) :
    ((c.feed (.data front)).feed (.data back)).Alike Eq (c.feed (.data (front ++ back))) := by
  rcases hp : (u.reader.parse front).result with e | - | response
  · exact alike_feed_append_of_error he hh hs hfront hp back
  · exact alike_feed_append_of_more he hh hs hfront hback hp
  · exact alike_feed_append_of_response he hh hs hfront hback hp

end Reading

/-- A piece may be cut anywhere. -/
theorem alike_feed_append (he : c.link.egress = []) (front back : Bytes) :
    ((c.feed (.data front)).feed (.data back)).Alike Eq (c.feed (.data (front ++ back))) := by
  have heq := Extension.respects_eq (ε := ε)
  by_cases hfront : front = []
  · subst hfront
    exact (alike_feed_of_empty he (.inr rfl)).feed heq _
  by_cases hback : back = []
  · subst hback
    rw [List.append_nil]
    exact alike_feed_of_empty (egress_feed he _) (.inr rfl)
  by_cases hc : c.Reads
  · rcases hc.elim with ⟨u, session, hh, hs⟩ | ⟨channel, hclosed, hk⟩
    · exact alike_feed_append_of_reading he hh hs hfront hback
    · -- A channel decodes behind its buffer, whose octets are those that came before.
      rw [hk] at he ⊢
      have hall : front ++ back ≠ [] := by simp [hfront]
      have hone := alike_feed_onChannel he hclosed hfront c
      have htwo := alike_feed_process he (channel.buffer.toList ++ front) hback c
      have hboth := alike_feed_onChannel he hclosed hall c
      rw [← List.append_assoc] at hboth
      exact ((hone.feed heq _).trans htwo).trans hboth.symm
  · have hone (piece : Inbound) := alike_feed_of_not_reads he hc piece
    exact (((hone _).feed heq _).trans (hone _)).trans (hone _).symm

/-! ### Streams -/

/-- The pieces carry this stream, and its end, if `eof` holds. -/
inductive Carries : List Inbound → Bytes → Bool → Prop
  | nil : Carries [] [] false
  | ended : Carries [.ended] [] true
  | empty {pieces : List Inbound} {stream : Bytes} {eof : Bool} (h : Carries pieces stream eof) :
      Carries (.empty :: pieces) stream eof
  | data (octets : Bytes) {pieces : List Inbound} {stream : Bytes} {eof : Bool}
      (h : Carries pieces stream eof) : Carries (.data octets :: pieces) (octets ++ stream) eof

/-- A stream in one piece. -/
def whole (stream : Bytes) (eof : Bool) : List Inbound :=
  .data stream :: if eof then [.ended] else []

/-- Fed piece by piece or at once, a client comes out the same. -/
theorem alike_foldl_feed_whole {pieces : List Inbound} {stream : Bytes} {eof : Bool}
    (h : Carries pieces stream eof) (he : c.link.egress = []) :
    (pieces.foldl feed c).Alike Eq ((whole stream eof).foldl feed c) := by
  induction h generalizing c with
  | nil => exact (alike_feed_of_empty he (.inr rfl)).symm
  | ended => exact (alike_feed_of_empty he (.inr rfl)).symm.feed Extension.respects_eq .ended
  | empty h ih =>
    have hempty := (alike_feed_of_empty he (.inl rfl)).foldl_feed Extension.respects_eq
    exact (ih (egress_feed he _)).trans (hempty _)
  | @data octets pieces stream eof h ih =>
    exact (ih (egress_feed he _)).trans
      ((alike_feed_append he octets stream).foldl_feed Extension.respects_eq
        (if eof then [.ended] else []))

/-! ### Runs -/

/-- What arrives by an action. -/
def Action.arrived : Action → List Inbound
  | .arrive pieces => pieces
  | _ => []

/-- Whether an action is about reading: something arrives, or the handler is called for
it. -/
def Action.isReading : Action → Bool
  | .arrive _ | .call .readable => true
  | _ => false

omit [Session σ] [Extension ε] in
theorem Action.isReading_elim {a : Action} (h : a.isReading) :
    (∃ pieces, a = .arrive pieces) ∨ a = .call .readable := by
  cases a with
  | arrive pieces => exact .inl ⟨pieces, rfl⟩
  | call cb => cases cb <;> first | exact .inr rfl | cases h
  | _ => cases h

theorem egress_run {actions : List Action} (hactions : ∀ a ∈ actions, a.isReading)
    (he : c.link.egress = []) : (c.run actions).link.egress = [] := by
  induction actions generalizing c with
  | nil => exact he
  | cons a actions ih =>
    have hrest := fun a ha => hactions a (List.mem_cons_of_mem _ ha)
    rcases Action.isReading_elim (hactions a List.mem_cons_self) with ⟨pieces, rfl⟩ | rfl
    · exact ih hrest (c := c.push pieces) he
    · exact ih hrest (egress_call he)

/-- What comes out in the end is what comes out of all that arrives. -/
theorem alike_finish_run {actions : List Action} (hactions : ∀ a ∈ actions, a.isReading)
    (he : c.link.egress = []) :
    (c.run actions).finish.Alike Eq
      ((actions.flatMap Action.arrived).foldl feed c.finish) := by
  have heq := Extension.respects_eq (ε := ε)
  induction actions generalizing c with
  | nil => exact (alike_refl he).foldl_feed heq _
  | cons a actions ih =>
    have hrest := fun a ha => hactions a (List.mem_cons_of_mem _ ha)
    rw [List.flatMap_cons, List.foldl_append]
    rcases Action.isReading_elim (hactions a List.mem_cons_self) with ⟨pieces, rfl⟩ | rfl
    · -- What arrives joins the end of what waits.
      have hpush : (c.push pieces).finish.Alike Eq (pieces.foldl feed c.finish) := by
        rw [finish, push, List.foldl_append]
        exact ((alike_with_input he _).foldl_feed heq _).foldl_feed heq _
      exact (ih hrest (c := c.push pieces) he).trans (hpush.foldl_feed heq _)
    · exact (ih hrest (egress_call he)).trans ((alike_finish_call he).foldl_feed heq _)

/-- A run reads a stream to its end: it consists of arrivals and calls, the stream is what
arrives, and nothing is left behind, unless nobody reads it any more. -/
structure ReadsAll (c : Client σ ε) (actions : List Action) (stream : Bytes) (eof : Bool) :
    Prop where
  isReading : ∀ a ∈ actions, a.isReading
  carries : Carries (actions.flatMap Action.arrived) stream eof
  settled : (c.run actions).Reads → (c.run actions).input = []

/-- Such a run comes to the same as if the stream had come in one piece. -/
theorem ReadsAll.alike {actions : List Action} {stream : Bytes} {eof : Bool}
    (h : c.ReadsAll actions stream eof) (he : c.link.egress = []) (hi : c.input = []) :
    (c.run actions).Alike Eq ((whole stream eof).foldl feed c) := by
  have hrun := egress_run h.isReading he
  -- Nothing waits any more, or nobody reads what waits.
  have hfinish : (c.run actions).Alike Eq (c.run actions).finish := by
    by_cases hc : (c.run actions).Reads
    · rw [finish, h.settled hc]
      exact alike_refl hrun
    · exact (alike_foldl_feed_of_not_reads hrun hc _).symm
  have hall := alike_finish_run h.isReading he
  rw [show c.finish = c by rw [finish, hi]; rfl] at hall
  exact (hfinish.trans hall).trans (alike_foldl_feed_whole h.carries he)

/-! ### What can be seen -/

/-- What can be seen of a client from outside, in order. -/
def trace (c : Client σ ε) : List Event :=
  c.events.filter Event.isVisible

omit [Extension ε] [Session σ] in
theorem trace_eq_seen (c : Client σ ε) : c.trace = c.link.seen.reverse :=
  List.filter_reverse ..

omit [Extension ε] [Session σ] in
theorem Alike.trace (h : c.Alike R c') : List.Forall₂ (Event.Alike R) c.trace c'.trace := by
  rw [trace_eq_seen, trace_eq_seen, List.forall₂_reverse_iff]
  exact h.link.seen

omit [Extension ε] [Session σ] in
theorem Alike.trace_eq (h : c.Alike Eq c') : c.trace = c'.trace :=
  Link.forall₂_alike_eq.1 h.trace

/-- A client that waits for the response to its request and has read nothing yet.  So far
`log` has happened, `onWrite` is what will be sent from within the writes, and `keys` is
where the masks come from. -/
def awaiting (request : Handshake.Request) (limit : Nat) (registry : Extension.Registry ε)
    (session : σ) (log : List Event) (onWrite : List (List Outgoing)) (keys : Nat → UInt32) :
    Client σ ε :=
  { link := { log, onWrite, keys }
    handler :=
      some (.upgrade { request, reader := { limit }, registry, state := .reading session }) }

/-- A client comes to this when it has opened and its request is written, whatever was to
be sent from within that write. -/
theorem exists_run_eq_awaiting (request : Handshake.Request) (limit : Nat)
    (registry : Extension.Registry ε) (session : σ) (log : List Event)
    (onWrite : List (List Outgoing)) (keys : Nat → UInt32) :
    ∃ log' onWrite',
      (ofUpgrade { link := { log, onWrite, keys } }
        { request, reader := { limit }, registry, state := .connecting session }).run
          [.call .opened, .runTasks, .call (.written none)]
        = awaiting request limit registry session
            (.fillInterested :: .write request.encode :: log') onWrite' keys := by
  obtain ⟨log', onWrite', h⟩ := Link.exists_transmit_eq (ε := ε) log onWrite keys
    request.encode
  have hlink : (({ log, onWrite, keys } : Link ε).transmit request.encode).record .fillInterested
      = { log := .fillInterested :: .write request.encode :: log', onWrite := onWrite', keys } := by
    rw [h]
    rfl
  let ready (link : Link ε) : Client σ ε :=
    ofUpgrade { link } { request, reader := { limit }, registry, state := .reading session }
  exact ⟨log', onWrite', congrArg ready hlink⟩

omit [Extension ε] [Session σ] in
theorem alike_awaiting (request : Handshake.Request) (limit : Nat)
    (registry : Extension.Registry ε) (session : σ) (log : List Event)
    (onWrite : List (List Outgoing)) {keys keys' : Nat → UInt32}
    (hkeys : ∀ n, R (keys n) (keys' n)) :
    (awaiting request limit registry session log onWrite keys).Alike R
      (awaiting request limit registry session log onWrite keys') :=
  ⟨.intro log [] keys' (List.forall₂_same.2 fun e _ => .same e) .nil hkeys rfl, .refl _⟩

/-- **How a stream is cut into pieces cannot be seen.**  A stream comes in as the response
to a request and what follows it, and perhaps it ends.  Two runs read all of it, each cut
into pieces and spread over calls of the handler in its own way.  Then the outcome of the
handshake, the frames that are delivered, the frames that are written, and what is done to
end the output and to close the endpoint are the same, and come in the same order: with
the same masks all of it is the same, and for extensions that do not look at masks the
masks of the frames that are written are the only difference.

In particular a run looks as if the stream had been cut in two at any place.  If this is
behind the response, then the channel is handed nothing and reads the rest itself. -/
theorem trace_of_readsAll (request : Handshake.Request) (limit : Nat)
    (registry : Extension.Registry ε) (session : σ) (log : List Event)
    (onWrite : List (List Outgoing)) {keys keys' : Nat → UInt32} {actions actions' : List Action}
    {stream : Bytes} {eof : Bool}
    (h : (awaiting request limit registry session log onWrite keys).ReadsAll actions stream eof)
    (h' : (awaiting request limit registry session log onWrite keys').ReadsAll actions' stream
      eof) :
    let c := awaiting request limit registry session log onWrite keys
    let c' := awaiting request limit registry session log onWrite keys'
    (keys = keys' → (c.run actions).trace = (c'.run actions').trace)
    ∧ (Extension.MaskBlind ε →
      List.Forall₂ (Event.Alike fun _ _ => True) (c.run actions).trace (c'.run actions').trace)
    ∧ ∀ front back, stream = front ++ back →
      (c.run actions).trace = ((whole back eof).foldl feed (c.feed (.data front))).trace := by
  intro c c'
  -- Both runs are compared with a client that is fed the whole stream in one piece.
  have hone : (c.run actions).Alike Eq ((whole stream eof).foldl feed c) := h.alike rfl rfl
  have hone' : (c'.run actions').Alike Eq ((whole stream eof).foldl feed c') := h'.alike rfl rfl
  refine ⟨?_, fun hblind => ?_, ?_⟩
  · rintro rfl
    exact (hone.trans hone'.symm).trace_eq
  · have hstart : c.Alike (fun _ _ => True) c' :=
      alike_awaiting request limit registry session log onWrite fun _ => trivial
    rw [hone.trace_eq, hone'.trace_eq]
    exact (hstart.foldl_feed hblind _).trace
  · rintro front back rfl
    have hcut := (alike_feed_append (c := c) rfl front back).foldl_feed Extension.respects_eq
      (if eof then [.ended] else [])
    exact (hone.trans hcut.symm).trace_eq

/-- A ping follows the response, and then the stream ends.  Once all of it comes in one
piece, and once it is cut within the end of the head and within the ping, and comes in
three calls. -/
theorem trace_of_readsAll_of_ping :
    let request : Handshake.Request :=
      { host := "h", resource := "/", key := "dGhlIHNhbXBsZSBub25jZQ==" }
    let front := Text.Utf8.encode ("HTTP/1.1 101 \r\nUpgrade: websocket\r\n"
      ++ "Connection: upgrade\r\nSec-WebSocket-Accept: s3pPLMBiTxaQ9kYGzzhZRbK+xOo=\r").toList
    let middle := [0x0a, 0x0d, 0x0a, 0x89]
    let c (keys : Nat → UInt32) : Client Script Extension.Identity :=
      awaiting request 200 {} {} [] [] keys
    let once : List Action :=
      [.arrive [.data (front ++ (middle ++ [1, 7])), .ended], .call .readable, .call .readable]
    let cut : List Action :=
      [.arrive [.data front], .call .readable, .arrive [.data middle, .empty, .data [1, 7]],
        .call .readable, .call .readable, .arrive [.ended], .call .readable]
    let seen : List Event :=
      [.replaceHandler, .deliver (.single .ping [7]),
        .accept (.single .pong [7]) [0x8a, 0x81, 0, 0, 0, 0, 7],
        .write [0x8a, 0x81, 0, 0, 0, 0, 7], .close]
    List.Forall₂ (Event.Alike fun _ _ => True) ((c fun _ => 0).run once).trace
        ((c fun _ => 5).run cut).trace
      ∧ ((c fun _ => 0).run once).trace.drop 1 = seen := by
  intro request front middle c once cut seen
  have hcarries (front : Bytes) :
      Carries [.data (front ++ (middle ++ [1, 7])), .ended] (front ++ (middle ++ [1, 7])) true
        ∧ Carries [.data front, .data middle, .empty, .data [1, 7], .ended]
          (front ++ (middle ++ [1, 7])) true := by
    refine ⟨?_, .data front (.data middle (.empty (.data [1, 7] .ended)))⟩
    simpa using Carries.data (front ++ (middle ++ [1, 7])) .ended
  -- All that is computed is computed at once, so that the digest is computed once.
  obtain ⟨hsettled, hsettled', hseen⟩ :
      (((c fun _ => 0).run once).Reads → ((c fun _ => 0).run once).input = [])
        ∧ (((c fun _ => 5).run cut).Reads → ((c fun _ => 5).run cut).input = [])
        ∧ ((c fun _ => 0).run once).trace.drop 1 = seen := by
    decide +kernel
  have honce : (c fun _ => 0).ReadsAll once (front ++ (middle ++ [1, 7])) true :=
    ⟨by decide, (hcarries front).1, hsettled⟩
  have hcut : (c fun _ => 5).ReadsAll cut (front ++ (middle ++ [1, 7])) true :=
    ⟨by decide, (hcarries front).2, hsettled'⟩
  have hmasks := (trace_of_readsAll request 200 {} ({} : Script) [] [] honce hcut).2.1
  exact ⟨hmasks Extension.respects_identity, hseen⟩

end WebSocket.Client
