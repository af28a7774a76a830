/-
WebSocket/Proofs/Client/Shutdown.lean

The end of a channel in a run.

The handler of a client is a channel, and anything befalls the client.  What an action makes
of the channel is a call of it or a send (`channelBy`), so that the channel settles
(`Channel.Settles`): closing the endpoint is the last that it does.  If a failed write is
reported behind this, the endpoint is closed again; `lateFailures` counts these reports, and
nothing else is ever noted behind the end (`closed_once`).
-/
import WebSocket.Proofs.Channel.Shutdown
import WebSocket.Proofs.Client.Delivery

namespace WebSocket.Client

variable {σ ε : Type} [Extension ε] [Session σ]

/-- Whether an action reports a failed write to a channel that has closed the endpoint. -/
def isLate (c : Client σ ε) : Action → Bool
  | .call cb =>
    match c.handler with
    | some (.connection k) => k.isLate cb
    | some (.upgrade _) | none => false
  | _ => false

/-- How many failed writes are reported in a run when the channel has closed the endpoint. -/
def lateFailures (c : Client σ ε) : List Action → Nat
  | [] => 0
  | a :: actions => (c.isLate a).toNat + (c.act a).1.lateFailures actions

theorem settles_channelBy {b k : Channel σ ε} {c : Client σ ε} {n : Nat} (h : b.Settles n k)
    (hk : c.Runs k) (a : Action) : b.Settles (n + (c.isLate a).toNat) (c.channelBy k a) := by
  cases a with
  | call cb =>
    rcases hk.handler with hh | hh
    · obtain ⟨hby, -⟩ := hk.channelBy_call hh cb
      have hlate : c.isLate (.call cb) = k.isLate cb := by simp only [isLate, hh]
      rw [hby, hlate]
      exact h.react c.input cb
    · have hby : c.channelBy k (.call cb) = k := by simp [channelBy, hh]
      have hlate : c.isLate (.call cb) = false := by simp only [isLate, hh]
      rw [hby, hlate]
      exact h
  | submit o => exact h.submit o
  | onNextWrite sends => exact h.of_events_eq rfl rfl rfl
  | arrive pieces => exact h
  | runTasks => exact h
  | dropHandler => exact h

theorem settles_run {b k : Channel σ ε} {c : Client σ ε} {n : Nat} (h : b.Settles n k)
    (hk : c.Runs k) (actions : List Action) :
    ∃ k', (c.run actions).Runs k' ∧ b.Settles (n + c.lateFailures actions) k' := by
  induction actions generalizing c k n with
  | nil => exact ⟨k, hk, h⟩
  | cons a actions ih =>
    obtain ⟨k', hk', h'⟩ := ih (settles_channelBy h hk a) (hk.channelBy a)
    rw [Nat.add_assoc] at h'
    exact ⟨k', hk', h'⟩

/-- **The endpoint is closed once, and then nothing happens any more**, but for failed writes
that are reported late.  The handler of a client is a channel that is open, and then anything
befalls the client; `E` is all that happens.

Either the endpoint is not closed, or closing it is the last that happens, up to as many
further closings as failed writes are reported behind the first.  So if there are none, then
the endpoint is closed once at most, and neither the channel nor a send does anything behind
that. -/
theorem closed_once (channel : Channel σ ε) (hopen : channel.closed = false)
    (hlink : channel.link.closed = false) (actions : List Action) :
    let start := ofChannel channel
    let final := start.run actions
    let late := start.lateFailures actions
    ∃ E : List Event, final.events = channel.link.events ++ E
      ∧ ((final.link.closed = false ∧ late = 0 ∧ .close ∉ E)
        ∨ ∃ before : List Event, final.link.closed ∧ .close ∉ before
          ∧ E = before ++ List.replicate (late + 1) .close) := by
  intro start final late
  obtain ⟨k, hk, h⟩ := settles_run (Channel.Settles.refl hopen hlink) (runs_ofChannel channel)
    actions
  have hfinal : final.link = k.link := hk.link
  have hevents : final.events = k.link.events := congrArg Link.events hfinal
  have hlate : 0 + start.lateFailures actions = late := Nat.zero_add _
  rw [hevents, hfinal]
  rw [hlate] at h
  generalize late = n at h
  cases h with
  | @going _ E _ hl hE hnot => exact ⟨E, hE, .inl ⟨hl, rfl, hnot⟩⟩
  | @ended _ _ E _ hl hE hnot => exact ⟨_, hE, .inr ⟨E, hl, hnot, rfl⟩⟩

/-- **A failed write that is reported late closes the endpoint a second time.**  A message is
written, the channel is aborted, and then the failure of the write is reported.  Of all calls
of the endpoint the last two are to close it. -/
theorem closed_twice_by_late_failure :
    let channel : Channel Script Extension.Marker := Channel.connect { keys := fun _ => 0 } {} []
    let actions : List Action :=
      [.submit (.binary [97]), .call .aborted, .call (.written (some "broken pipe"))]
    let final := (ofChannel channel).run actions
    let octets : Bytes := [0x82, 0x81, 0, 0, 0, 0, 97]
    channel.closed = false ∧ channel.link.closed = false
      ∧ final.events = [.accept (.single .binary [97]) octets, .write octets, .close, .close]
      ∧ ¬final.events.count .close ≤ 1 := by
  decide +kernel

/-- The peer closes, and the close frame is answered.  Neither the octets that arrive later nor
a message, a call to go on reading, an end of the channel or a write that was completed make
any difference; a failed write closes the endpoint again. -/
theorem closed_once_of_peer_close :
    let channel : Channel Script Extension.Marker := Channel.connect { keys := fun _ => 0 } {} []
    let actions : List Action :=
      [.arrive [.data [0x88, 0]], .call .readable, .arrive [.data [0x81, 1, 98]],
        .submit (.binary [97]), .call .readable, .call .aborted, .call (.written none),
        .call (.written (some "broken pipe")), .call .opened]
    let start := ofChannel channel
    let final := start.run actions
    channel.closed = false ∧ channel.link.closed = false ∧ start.lateFailures actions = 1
      ∧ ∃ before : List Event, .close ∉ before ∧ final.events = before ++ [.close, .close] := by
  intro channel actions start final
  have hlate : start.lateFailures actions = 1 := by decide +kernel
  have hclosed : ((ofChannel channel).run actions).link.closed = true := by decide +kernel
  obtain ⟨E, hE, ⟨hopen, -, -⟩ | ⟨before, -, hnot, hbefore⟩⟩ :=
    closed_once channel rfl rfl actions
  · rw [hclosed] at hopen
    cases hopen
  · have hlast : List.replicate (start.lateFailures actions + 1) Event.close = [.close, .close] := by
      rw [hlate]
      rfl
    have hnone : channel.link.events = [] := rfl
    rw [hnone, List.nil_append] at hE
    rw [hlast] at hbefore
    exact ⟨rfl, rfl, hlate, before, hnot, hE.trans hbefore⟩

end WebSocket.Client
