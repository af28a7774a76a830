/-
WebSocket/Proofs/Client/Alike.lean

Clients that look the same from outside.

Two clients are alike if their links are, and if the same is to be expected of their
handlers: a handshake is the same or done in both, a channel has the same application and,
unless it was closed, the same octets to decode.  What still waits at the endpoint is not
compared, nor is what has nothing to do with reading.

If octets arrive at two alike clients, they stay alike (`Alike.call_readable`).
-/
import WebSocket.Client
import WebSocket.Proofs.Channel.Alike
import WebSocket.Proofs.Handshake.Reading

namespace WebSocket

variable {R : UInt32 → UInt32 → Prop} {σ ε : Type}

/-! ### Handlers -/

/-- Handlers of which the same is to be expected. -/
inductive Handler.Alike : Option (Handler σ ε) → Option (Handler σ ε) → Prop
  | none : Alike none none
  | upgrade (u : Handshake.Upgrade σ ε) : Alike (some (.upgrade u)) (some (.upgrade u))
  | done {u u' : Handshake.Upgrade σ ε} (h : u.state = .done) (h' : u'.state = .done) :
      Alike (some (.upgrade u)) (some (.upgrade u'))
  | connection {k k' : Connection σ} (h : k.Alike k') :
      Alike (some (.connection k)) (some (.connection k'))

namespace Handler.Alike

variable {h h' h'' : Option (Handler σ ε)}

theorem refl : (h : Option (Handler σ ε)) → Handler.Alike h h
  | .none => .none
  | some (.upgrade u) => .upgrade u
  | some (.connection k) => .connection (.refl k)

theorem symm (a : Handler.Alike h h') : Handler.Alike h' h := by
  cases a with
  | none => exact .none
  | upgrade u => exact .upgrade u
  | done hu hu' => exact .done hu' hu
  | connection hk => exact .connection hk.symm

theorem trans (a : Handler.Alike h h') (b : Handler.Alike h' h'') : Handler.Alike h h'' := by
  cases a with
  | none => exact b
  | upgrade u => exact b
  | done hu hu' =>
    cases b with
    | upgrade => exact .done hu hu'
    | done _ hu'' => exact .done hu hu''
  | connection hk =>
    cases b with
    | connection hk' => exact .connection (hk.trans hk')

end Handler.Alike

/-! ### Clients -/

namespace Client

/-- Clients of which the same is to be expected, and that look the same so far. -/
structure Alike (R : UInt32 → UInt32 → Prop) (c c' : Client σ ε) : Prop where
  link : c.link.Alike R c'.link
  handler : Handler.Alike c.handler c'.handler

variable {c c' c'' : Client σ ε}

theorem alike_refl (he : c.link.egress = []) : c.Alike Eq c :=
  ⟨Link.alike_refl he, .refl _⟩

theorem Alike.symm (h : c.Alike Eq c') : c'.Alike Eq c :=
  ⟨h.link.symm, h.handler.symm⟩

theorem Alike.trans (h : c.Alike Eq c') (h' : c'.Alike Eq c'') : c.Alike Eq c'' :=
  ⟨h.link.trans h'.link, h.handler.trans h'.handler⟩

/-! ### Calls -/

variable [Extension ε] [Session σ]

/-- For a channel that is new, it does not matter what still waits at the endpoint. -/
theorem alike_opened (hR : Extension.Respects ε R) (h : c.link.Alike R c'.link)
    {k k' : Connection σ} (hk : k.Alike k') :
    (c.callConnection k .opened).Alike R (c'.callConnection k' .opened) := by
  have hc : Channel.Alike R { k with link := c.link } { k' with link := c'.link } :=
    Channel.alike_iff.2 ⟨hk, h⟩
  obtain ⟨hk', hlink⟩ := Channel.alike_iff.1 (hc.proceed hR).await
  exact ⟨hlink, .connection hk'⟩

theorem Alike.callConnection (hR : Extension.Respects ε R) (h : c.link.Alike R c'.link)
    (hi : c.input = c'.input) {k k' : Connection σ} (hk : k.Alike k') (cb : Callback) :
    (c.callConnection k cb).Alike R (c'.callConnection k' cb)
      ∧ (c.callConnection k cb).input = (c'.callConnection k' cb).input := by
  have hc : Channel.Alike R { k with link := c.link } { k' with link := c'.link } :=
    Channel.alike_iff.2 ⟨hk, h⟩
  obtain ⟨hreact, hrest⟩ := hc.react hR c.input cb
  obtain ⟨hk', hlink⟩ := Channel.alike_iff.1 hreact
  unfold Client.callConnection
  rw [← hi]
  exact ⟨⟨hlink, .connection hk'⟩, hrest⟩

end Client

namespace Handshake.Upgrade

/-! ### Reading the response -/

/-- Readings that have come to the same. -/
structure Reading.Alike (R : UInt32 → UInt32 → Prop) (r r' : Reading ε) : Prop where
  link : r.link.Alike R r'.link
  result : r.result = r'.result
  reader : ∀ x, r.result = .ok x → r.reader = r'.reader

theorem alike_read (reader : HeadReader) {link link' : Link ε} (h : link.Alike R link')
    (input : List Inbound) :
    (read reader link input).Alike R (read reader link' input)
      ∧ (read reader link input).input = (read reader link' input).input := by
  induction reader, link, input using read_induction generalizing link' with
  | nil => exact ⟨⟨h.record (.same _), rfl, fun _ _ => rfl⟩, rfl⟩
  | empty => exact ⟨⟨h.record (.same _), rfl, fun _ _ => rfl⟩, rfl⟩
  | data_nil => exact ⟨⟨h.record (.same _), rfl, fun _ _ => rfl⟩, rfl⟩
  | ended => exact ⟨⟨h.record (.same _), rfl, fun _ _ => rfl⟩, rfl⟩
  | failed => exact ⟨⟨h.record (.same _), rfl, fun _ _ => rfl⟩, rfl⟩
  | error reader link octets input e hne hp =>
    rw [read_of_error hne hp, read_of_error hne hp]
    exact ⟨⟨h.record (.same _), rfl, fun _ _ => rfl⟩, rfl⟩
  | response reader link octets input response hne hp =>
    rw [read_of_response hne hp, read_of_response hne hp]
    exact ⟨⟨h.record (.same _), rfl, fun _ _ => rfl⟩, rfl⟩
  | more reader link octets input hne hp ih =>
    rw [read_of_more hne hp, read_of_more hne hp]
    exact ih (h.record (.same _))

variable [Extension ε] [Session σ]
variable {host host' : Host ε}

omit [Extension ε] [Session σ] in
/-- Failures for the same reason are alike. -/
theorem alike_fail (h : host.link.Alike R host'.link) (u u' : Upgrade σ ε) (e : Error) :
    (u.fail host e).host.link.Alike R (u'.fail host' e).host.link := by
  have hfailed := h.record (.same (.failed e))
  unfold fail become
  dsimp only
  split
  · exact hfailed.record (.same .close)
  · exact (hfailed.record (.same .shutdownOutput)).record (.same .close)

theorem alike_follow_fail (h : host.link.Alike R host'.link) (u u' : Upgrade σ ε) (e : Error) :
    (Client.follow (u.fail host e)).Alike R (Client.follow (u'.fail host' e)) :=
  ⟨alike_fail h u u' e, .done rfl rfl⟩

omit [Session σ] in
theorem alike_connect {link link' : Link ε} (h : link.Alike R link') (session : σ)
    (extensions : List ε) :
    (Channel.connect link session extensions).link.Alike R
      (Channel.connect link' session extensions).link := by
  obtain ⟨log, pending, keys, hlog, hpending, hkeys, hegress⟩ := h
  exact .intro log pending keys hlog hpending hkeys hegress

/-- Channels for the same application and the same extensions are alike. -/
theorem alike_follow_handOver (hR : Extension.Respects ε R) (h : host.link.Alike R host'.link)
    {u u' : Upgrade σ ε} (hu : u.registry = u'.registry) (session : σ) (response : Response)
    (leftover : Bytes) :
    (Client.follow (u.handOver host session response leftover)).Alike R
      (Client.follow (u'.handOver host' session response leftover)) := by
  have hlink := alike_connect (h.record (.same (.upgraded response))) session
    (u.registry.instantiate response.extensions)
  unfold handOver Client.follow
  rw [← hu]
  exact Client.alike_opened hR (hlink.record (.same .replaceHandler)) (.refl _)

/-- From readings that have come to the same, the same is concluded. -/
theorem alike_follow_conclude (hR : Extension.Respects ε R) (u : Upgrade σ ε) (session : σ)
    (host host' : Host ε) {r r' : Reading ε} (h : r.Alike R r') :
    (Client.follow (u.conclude host session r)).Alike R
      (Client.follow (u.conclude host' session r')) := by
  obtain ⟨reader, link, input, result⟩ := r
  obtain ⟨reader', link', input', result'⟩ := r'
  obtain ⟨hlink, rfl, hreader⟩ := h
  unfold conclude
  rcases result with e | - | ⟨response, leftover⟩
  · exact alike_follow_fail hlink _ _ e
  · obtain rfl : reader = reader' := hreader none rfl
    exact ⟨hlink.record (.same .fillInterested), .upgrade _⟩
  · dsimp only
    split
    · exact alike_follow_fail hlink _ _ _
    · exact alike_follow_handOver hR hlink rfl session _ leftover

omit [Extension ε] [Session σ] in
theorem input_fail (u : Upgrade σ ε) (host : Host ε) (e : Error) :
    (u.fail host e).host.input = host.input := by
  unfold fail become
  dsimp only
  split <;> rfl

/-- What reading has left at the endpoint stays there. -/
theorem input_follow_conclude (u : Upgrade σ ε) (session : σ) (host : Host ε) (r : Reading ε) :
    (Client.follow (u.conclude host session r)).input = r.input := by
  have hfail (u : Upgrade σ ε) (host : Host ε) (e : Error) :
      (Client.follow (u.fail host e)).input = host.input := input_fail u host e
  unfold conclude
  dsimp only
  split
  · rw [hfail]
  · rfl
  · split
    · rw [hfail]
    · rfl

end Handshake.Upgrade

namespace Client

variable [Extension ε] [Session σ] {c c' : Client σ ε}

theorem call_of_none (h : c.handler = none) (cb : Callback) : c.call cb = c := by
  simp [call, h]

theorem call_of_connection {k : Connection σ} (h : c.handler = some (.connection k))
    (cb : Callback) : c.call cb = c.callConnection k cb := by
  simp [call, h]

theorem call_of_reading {u : Handshake.Upgrade σ ε} {session : σ}
    (h : c.handler = some (.upgrade u)) (hs : u.state = .reading session) :
    c.call .readable
      = follow (u.conclude c.toHost session (Handshake.Upgrade.read u.reader c.link c.input)) := by
  simp [call, h, Handshake.Upgrade.react, Handshake.Upgrade.readable, hs]

/-- An upgrade that does not wait for the response leaves alone what arrives. -/
theorem call_of_not_reading {u : Handshake.Upgrade σ ε} (h : c.handler = some (.upgrade u))
    (hs : ∀ session, u.state ≠ .reading session) : c.call .readable = c := by
  have hu : u.readable c.toHost = { upgrade := u, host := c.toHost } := by
    unfold Handshake.Upgrade.readable
    split
    · next session hsession => exact absurd hsession (hs session)
    · rfl
  have hcall : c.call .readable = follow (u.readable c.toHost) := by
    simp [call, h, Handshake.Upgrade.react]
  rw [hcall, hu, follow, ← h]

/-- Where the same octets arrive at alike clients, the clients stay alike. -/
theorem Alike.call_readable (hR : Extension.Respects ε R) (h : c.Alike R c')
    (hi : c.input = c'.input) :
    (c.call .readable).Alike R (c'.call .readable)
      ∧ (c.call .readable).input = (c'.call .readable).input := by
  obtain ⟨hlink, hhandler⟩ := h
  generalize hh : c.handler = handler at hhandler
  generalize hh' : c'.handler = handler' at hhandler
  have halike : c.Alike R c' := ⟨hlink, by rw [hh, hh']; exact hhandler⟩
  -- Only a channel and an upgrade that is reading do anything.
  cases hhandler with
  | none =>
    rw [call_of_none hh, call_of_none hh']
    exact ⟨halike, hi⟩
  | upgrade u =>
    by_cases hs : ∃ session, u.state = .reading session
    · obtain ⟨session, hs⟩ := hs
      rw [call_of_reading hh hs, call_of_reading hh' hs, ← hi]
      obtain ⟨hread, hrest⟩ := Handshake.Upgrade.alike_read u.reader hlink c.input
      refine ⟨Handshake.Upgrade.alike_follow_conclude hR u session _ _ hread, ?_⟩
      rw [Handshake.Upgrade.input_follow_conclude, Handshake.Upgrade.input_follow_conclude, hrest]
    · rw [call_of_not_reading hh (not_exists.1 hs), call_of_not_reading hh' (not_exists.1 hs)]
      exact ⟨halike, hi⟩
  | done hu hu' =>
    rw [call_of_not_reading hh (by simp [hu]), call_of_not_reading hh' (by simp [hu'])]
    exact ⟨halike, hi⟩
  | connection hk =>
    rw [call_of_connection hh, call_of_connection hh']
    exact Alike.callConnection hR hlink hi hk .readable

end Client

end WebSocket
