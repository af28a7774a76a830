/-
WebSocket/Proofs/Handshake/Outcome.lean

A handshake has one outcome, and what is done at its end depends on that outcome alone.

Design.  A `Course` is an upgrade together with all that goes on around it: octets
arrive, the executor takes tasks or does not, the application sends, also from within
writes, and once the endpoint was handed over the channel behind it is called as well.
The endpoint may call the upgrade at any time, however often.

The milestones of a log are the events that matter here: reports, teardown, the change
of the handler, and sends that succeeded.  Until the outcome is known there are none,
and the link refuses whatever is sent (`Alone`).  A call of the upgrade leaves it at
that, or it fails, or it hands the endpoint over (`Turn.Exit`, `exit_react`).  A failure
adds its report and the teardown, and nothing is ever added to them; behind a handover
there is only what a channel does, which is no business of a handshake (`HandedOver`).
-/
import WebSocket.Proofs.Channel.Log
import WebSocket.Proofs.Handshake.Reading

namespace WebSocket

/-! ### Milestones -/

namespace Event

/-- The report of an outcome. -/
def isReport : Event → Bool
  | upgraded _ | failed _ => true
  | _ => false

/-- A report, a step of the teardown, the change of the handler, or a send that
succeeded. -/
def isMilestone : Event → Bool
  | upgraded _ | failed _ | shutdownOutput | close | replaceHandler => true
  | accept .. | nested none | reply none => true
  | _ => false

theorem isMilestone_of_isReport {e : Event} (h : e.isReport) : e.isMilestone := by
  cases e <;> first | rfl | cases h

theorem not_isReport_of_ofChannel {e : Event} (h : e.ofChannel) : ¬e.isReport := by
  cases e <;> first | exact Bool.false_ne_true | cases h

end Event

/-- What the endpoint has to do after a failure. -/
def Handshake.teardown : Handshake.Kind → List Event
  | .transport | .protocol => [.close]
  | .validation | .construction => [.shutdownOutput, .close]

/-! ### A link without a channel -/

namespace Link

variable {ε : Type}

/-- No channel was ever there. -/
structure Unconnected (l : Link ε) : Prop where
  chain : l.chain = none
  closed : l.closed = false
  closeSent : l.closeSent = false

/-- There is no channel behind either link, and no milestone lies between them. -/
structure Passes (l l' : Link ε) : Prop where
  unconnected : l'.Unconnected
  events : ∃ E, l'.events = l.events ++ E ∧ E.filter Event.isMilestone = []

theorem Unconnected.passes_refl {l : Link ε} (h : l.Unconnected) : l.Passes l :=
  ⟨h, [], by simp, rfl⟩

theorem Passes.trans {l l' l'' : Link ε} (h : l.Passes l') (h' : l'.Passes l'') :
    l.Passes l'' := by
  obtain ⟨E, hE, hm⟩ := h.events
  obtain ⟨E', hE', hm'⟩ := h'.events
  exact ⟨h'.unconnected, E ++ E', by rw [hE', hE, List.append_assoc], by simp [hm, hm']⟩

theorem Unconnected.passes_record {l : Link ε} (h : l.Unconnected) {e : Event}
    (he : e.isMilestone = false) : l.Passes (l.record e) :=
  ⟨⟨h.chain, h.closed, h.closeSent⟩, [e], by simp, by simp [he]⟩

theorem Unconnected.passes_foldl {α : Type} {step : Link ε → α → Link ε}
    (hstep : ∀ (l : Link ε) a, l.Unconnected → l.Passes (step l a)) {l : Link ε} (h : l.Unconnected)
    (as : List α) : l.Passes (as.foldl step l) := by
  induction as generalizing l with
  | nil => exact h.passes_refl
  | cons a as ih => exact (hstep l a h).trans (ih (hstep l a h).unconnected)

variable [Extension ε]

/-- Without a channel every frame is refused, and nothing changes. -/
theorem Unconnected.send_eq {l : Link ε} (h : l.Unconnected) (f : Frame) :
    l.send f = (l, .error .notConnected) := by
  simp [send, accept, prepare, h.chain, h.closed, h.closeSent]

theorem Unconnected.submit_eq {l : Link ε} (h : l.Unconnected) (o : Outgoing) :
    ∃ e, l.submit o = (l, .error e) := by
  unfold submit
  split
  · exact ⟨_, rfl⟩
  · exact ⟨_, h.send_eq _⟩

theorem Unconnected.passes_submitNested {l : Link ε} (h : l.Unconnected) (o : Outgoing) :
    l.Passes (l.submitNested o) := by
  obtain ⟨e, he⟩ := h.submit_eq o
  unfold submitNested
  rw [he]
  exact h.passes_record rfl

theorem Unconnected.passes_transmit {l : Link ε} (h : l.Unconnected) (octets : Bytes) :
    l.Passes (l.transmit octets) := by
  unfold transmit
  split
  · exact h.passes_record rfl
  · next sends onWrite _ =>
    have hnow : ({ l with onWrite } : Link ε).Unconnected := ⟨h.chain, h.closed, h.closeSent⟩
    have hsends := hnow.passes_foldl (fun l o hl => hl.passes_submitNested o) sends
    have hall := hsends.trans (hsends.unconnected.passes_record (e := .write octets) rfl)
    exact ⟨hall.unconnected, hall.events⟩

/-- Without a channel, a write changes nothing but what is noted and what is sent from
within the next writes. -/
theorem exists_transmit_eq (log : List Event) (onWrite : List (List Outgoing))
    (keys : Nat → UInt32) (octets : Bytes) :
    ∃ log' onWrite', ({ log, onWrite, keys } : Link ε).transmit octets
      = { log := .write octets :: log', onWrite := onWrite', keys } := by
  rcases onWrite with - | ⟨sends, later⟩
  · exact ⟨log, [], rfl⟩
  · have hsends (log : List Event) : ∃ log', sends.foldl submitNested
        ({ log, onWrite := later, keys } : Link ε) = { log := log', onWrite := later, keys } := by
      induction sends generalizing log with
      | nil => exact ⟨log, rfl⟩
      | cons o sends ih =>
        have hnone : ({ log, onWrite := later, keys } : Link ε).Unconnected := ⟨rfl, rfl, rfl⟩
        obtain ⟨e, he⟩ := hnone.submit_eq o
        rw [List.foldl_cons, submitNested, he]
        exact ih _
    obtain ⟨log', h⟩ := hsends log
    refine ⟨log', later, ?_⟩
    simp only [transmit, h]
    rfl

end Link

namespace Handshake

open Link

variable {σ ε : Type}

/-! ### One call of an upgrade -/

namespace Upgrade

/-- What a call of an upgrade can come to while its outcome is not known. -/
inductive Turn.Exit (host : Host ε) (t : Turn σ ε) : Prop
  /-- It stays unknown. -/
  | undecided (hs : t.upgrade.state ≠ .done) (hk : t.successor = none)
      (hl : host.link.Passes t.host.link)
  /-- The failure is reported, and the endpoint is torn down. -/
  | failed (e : Error) (l : Link ε) (hl : host.link.Passes l) (hs : t.upgrade.state = .done)
      (hk : t.successor = none) (hu : t.host.link.Unconnected)
      (he : t.host.link.events = l.events ++ .failed e :: teardown e.kind)
  /-- The success is reported, and the endpoint gets another handler. -/
  | upgraded (r : Response) (l : Link ε) (hl : host.link.Passes l) (hs : t.upgrade.state = .done)
      (he : t.host.link.events = l.events ++ [.upgraded r, .replaceHandler])

theorem exit_unchanged {u : Upgrade σ ε} {host : Host ε} (hs : u.state ≠ .done)
    (hl : host.link.Unconnected) : Turn.Exit host { upgrade := u, host } :=
  .undecided hs rfl hl.passes_refl

theorem exit_fail (u : Upgrade σ ε) {host host' : Host ε} (hl : host.link.Passes host'.link)
    (cause : Error) : Turn.Exit host (u.fail host' cause) := by
  have hu := hl.unconnected
  refine .failed cause host'.link hl rfl rfl ?_ ?_
  · unfold fail become Host.record
    split <;> exact ⟨hu.chain, hu.closed, hu.closeSent⟩
  · unfold fail become Host.record
    cases hk : cause.kind <;> simp [Kind.isStreamFault, teardown]

/-- Reading does nothing to a link but to note that it has asked for octets. -/
theorem exists_read_link_eq (reader : HeadReader) (link : Link ε) (input : List Inbound) :
    ∃ n, (read reader link input).link
      = { link with log := List.replicate n .fill ++ link.log } := by
  induction reader, link, input using read_induction with
  | nil => exact ⟨1, rfl⟩
  | empty => exact ⟨1, rfl⟩
  | data_nil => exact ⟨1, rfl⟩
  | ended => exact ⟨1, rfl⟩
  | failed => exact ⟨1, rfl⟩
  | error reader link octets input e hne hp =>
    rw [read_of_error hne hp]
    exact ⟨1, rfl⟩
  | response reader link octets input response hne hp =>
    rw [read_of_response hne hp]
    exact ⟨1, rfl⟩
  | more reader link octets input hne hp ih =>
    obtain ⟨n, h⟩ := ih
    rw [read_of_more hne hp, h]
    exact ⟨n + 1, by simp [Link.record, List.replicate_succ']⟩

theorem passes_read (reader : HeadReader) {link : Link ε} (h : link.Unconnected)
    (input : List Inbound) : link.Passes (read reader link input).link := by
  obtain ⟨n, hread⟩ := exists_read_link_eq reader link input
  rw [hread]
  exact ⟨⟨h.chain, h.closed, h.closeSent⟩, List.replicate n .fill, by simp [events],
    by simp [Event.isMilestone]⟩

theorem exit_opened {u : Upgrade σ ε} {host : Host ε} (hs : u.state ≠ .done)
    (hl : host.link.Unconnected) : Turn.Exit host (u.opened host) := by
  unfold opened
  split
  · split
    · exact .undecided nofun rfl hl.passes_refl
    · exact exit_fail u hl.passes_refl _
  · exact exit_unchanged hs hl

theorem exit_written {u : Upgrade σ ε} {host : Host ε} (hs : u.state ≠ .done)
    (hl : host.link.Unconnected) (failure : Option String) :
    Turn.Exit host (u.written host failure) := by
  unfold written
  split
  · split
    · exact .undecided nofun rfl (hl.passes_record rfl)
    · exact exit_fail u hl.passes_refl _
  · exact exit_unchanged hs hl

theorem exit_aborted {u : Upgrade σ ε} {host : Host ε} (hs : u.state ≠ .done)
    (hl : host.link.Unconnected) : Turn.Exit host (u.aborted host) := by
  unfold aborted
  split
  · exact exit_unchanged hs hl
  · exact exit_fail u hl.passes_refl _

variable [Extension ε] [Session σ]

theorem exit_handOver (u : Upgrade σ ε) {host host' : Host ε}
    (hl : host.link.Passes host'.link) (session : σ) (response : Response) (leftover : Bytes) :
    Turn.Exit host (u.handOver host' session response leftover) :=
  .upgraded response host'.link hl rfl
    (by simp [handOver, Channel.connect, Link.events, Link.record])

theorem exit_readable {u : Upgrade σ ε} {host : Host ε} (hs : u.state ≠ .done)
    (hl : host.link.Unconnected) : Turn.Exit host (u.readable host) := by
  have hread := passes_read u.reader hl host.input
  unfold readable
  split
  · unfold conclude
    dsimp only
    split
    · exact exit_fail _ hread _
    · exact .undecided nofun rfl (hread.trans (hread.unconnected.passes_record rfl))
    · split
      · exact exit_fail _ hread _
      · exact exit_handOver _ hread _ _ _
  · exact exit_unchanged hs hl

/-- While the outcome is not known, every call leaves it unknown, fails, or hands the
endpoint over. -/
theorem exit_react {u : Upgrade σ ε} {host : Host ε} (hs : u.state ≠ .done)
    (hl : host.link.Unconnected) (cb : Callback) : Turn.Exit host (u.react host cb) := by
  cases cb with
  | opened => exact exit_opened hs hl
  | readable => exact exit_readable hs hl
  | written failure => exact exit_written hs hl failure
  | aborted => exact exit_aborted hs hl

/-- When it is known, no call does anything. -/
theorem react_of_done {u : Upgrade σ ε} (hs : u.state = .done) (host : Host ε) (cb : Callback) :
    u.react host cb = { upgrade := u, host } := by
  cases cb <;> simp [react, opened, readable, written, aborted, hs]

end Upgrade

/-! ### The course of a handshake -/

/-- An upgrade, what it runs on, and the channel that the endpoint was handed over to. -/
structure Course (σ ε : Type) where
  upgrade : Upgrade σ ε
  host : Host ε
  successor : Option (Connection σ) := none
  /-- What the upgrade by itself has had the endpoint do and has reported, in order. -/
  calls : List Event := []

namespace Course

/-- What has happened, in order. -/
def events (s : Course σ ε) : List Event :=
  s.host.link.events

/-- A handshake with this application that has not begun, on a link that is not used yet.
The octets that have arrived, the tasks of others and the rest of the host are arbitrary. -/
def start (u : Upgrade σ ε) (session : σ) (host : Host ε) (keys : Nat → UInt32) : Course σ ε :=
  { upgrade := { u with state := .connecting session }
    host := { host with link := { keys } } }

/-- What can happen next. -/
inductive Step where
  /-- The endpoint calls the upgrade. -/
  | call (cb : Callback)
  /-- The endpoint calls the channel that it was handed over to. -/
  | callSuccessor (cb : Callback)
  /-- Something arrives at the endpoint, piece by piece. -/
  | arrive (pieces : List Inbound)
  /-- From now on the executor takes tasks, or does not. -/
  | executor (takes : Bool)
  /-- The executor runs the tasks that wait. -/
  | runTasks
  /-- The application sends something. -/
  | submit (o : Outgoing)
  /-- It is settled what is sent from within the next writes. -/
  | onWrite (sends : List (List Outgoing))

/-- Goes on where a call of the upgrade has come to.  What the call adds to the log, it adds
to the calls of the upgrade as well. -/
def advance (s : Course σ ε) (turn : Upgrade.Turn σ ε) : Course σ ε where
  upgrade := turn.upgrade
  host := turn.host
  successor := turn.successor.or s.successor
  calls := s.calls ++ turn.host.link.events.drop s.events.length

variable [Extension ε] [Session σ]

/-- Takes a step. -/
def step (s : Course σ ε) : Step → Course σ ε
  | .call cb => s.advance (s.upgrade.react s.host cb)
  | .callSuccessor cb =>
    match s.successor with
    | none => s
    | some k =>
      let (channel, input) := Channel.react { k with link := s.host.link } s.host.input cb
      { s with
        host := { s.host with link := channel.link, input }
        successor := some channel.toConnection }
  | .arrive pieces => { s with host := { s.host with input := s.host.input ++ pieces } }
  | .executor takes => { s with host := { s.host with takesTasks := takes } }
  | .runTasks =>
    { s with
      host := { s.host with link := s.host.tasks.foldl Link.transmit s.host.link, tasks := [] } }
  | .submit o => { s with host := { s.host with link := (s.host.link.submit o).1 } }
  | .onWrite sends =>
    { s with host := { s.host with link := { s.host.link with onWrite := sends } } }

/-- Takes one step after the other. -/
def run (s : Course σ ε) (steps : List Step) : Course σ ε :=
  steps.foldl step s

/-! ### Before the outcome, and behind a failure -/

/-- Nobody but the upgrade has brought about a milestone, and these are `ms`. -/
structure Alone (ms : List Event) (s : Course σ ε) : Prop where
  unconnected : s.host.link.Unconnected
  milestones : s.events.filter Event.isMilestone = ms
  calls : s.calls.filter Event.isMilestone = ms
  successor : s.successor = none

omit [Extension ε] [Session σ] in
/-- What passes by without a milestone changes nothing. -/
theorem Alone.of_passes {ms : List Event} {s s' : Course σ ε} (h : s.Alone ms)
    (hl : s.host.link.Passes s'.host.link) (hc : s'.calls = s.calls)
    (hk : s'.successor = s.successor) : s'.Alone ms := by
  obtain ⟨E, hE, hm⟩ := hl.events
  refine ⟨hl.unconnected, ?_, by rw [hc, h.calls], by rw [hk, h.successor]⟩
  rw [events, hE, List.filter_append, hm, List.append_nil]
  exact h.milestones

/-- While there is no channel, a step that is not a call of the upgrade leaves the upgrade
alone and passes by without a milestone. -/
structure Aside (s s' : Course σ ε) : Prop where
  upgrade : s'.upgrade = s.upgrade
  calls : s'.calls = s.calls
  successor : s'.successor = s.successor
  passes : s.host.link.Passes s'.host.link

theorem aside_step {s : Course σ ε} (hl : s.host.link.Unconnected) (hk : s.successor = none)
    {x : Step} (hx : ∀ cb, x ≠ .call cb) : s.Aside (s.step x) := by
  cases x with
  | call cb => exact absurd rfl (hx cb)
  | callSuccessor cb =>
    rw [show s.step (.callSuccessor cb) = s by simp [step, hk]]
    exact ⟨rfl, rfl, rfl, hl.passes_refl⟩
  | arrive pieces => exact ⟨rfl, rfl, rfl, hl.passes_refl⟩
  | executor takes => exact ⟨rfl, rfl, rfl, hl.passes_refl⟩
  | runTasks =>
    exact ⟨rfl, rfl, rfl, hl.passes_foldl (fun l octets hl => hl.passes_transmit octets) _⟩
  | submit o =>
    obtain ⟨e, he⟩ := hl.submit_eq o
    exact ⟨rfl, rfl, rfl, by simpa [step, he] using hl.passes_refl⟩
  | onWrite sends =>
    exact ⟨rfl, rfl, rfl, ⟨hl.chain, hl.closed, hl.closeSent⟩, hl.passes_refl.events⟩

/-- Only a call of the upgrade can bring about a milestone. -/
theorem Alone.step_env {ms : List Event} {s : Course σ ε} (h : s.Alone ms) {x : Step}
    (hx : ∀ cb, x ≠ .call cb) : (s.step x).Alone ms ∧ (s.step x).upgrade = s.upgrade := by
  have haside := aside_step h.unconnected h.successor hx
  exact ⟨h.of_passes haside.passes haside.calls haside.successor, haside.upgrade⟩

/-! ### Behind a handover -/

/-- The upgrade has reported its success and put a channel in its place, and since then
there was only what channels do. -/
structure HandedOver (r : Response) (s : Course σ ε) : Prop where
  calls : s.calls.filter Event.isMilestone = [.upgraded r, .replaceHandler]
  events : ∃ front back, s.events = front ++ .upgraded r :: .replaceHandler :: back
    ∧ front.filter Event.isMilestone = [] ∧ ∀ e ∈ back, e.ofChannel

omit [Extension ε] [Session σ] in
theorem HandedOver.of_grows {r : Response} {s s' : Course σ ε} (h : s.HandedOver r)
    (hl : s.host.link.Grows s'.host.link) (hc : s'.calls = s.calls) : s'.HandedOver r := by
  obtain ⟨front, back, hs, hf, hb⟩ := h.events
  obtain ⟨E, hE, hall⟩ := hl
  refine ⟨by rw [hc, h.calls], front, back ++ E.reverse, ?_, hf, fun e he => ?_⟩
  · have hevents : s'.events = s.events ++ E.reverse := by simp [Course.events, Link.events, hE]
    rw [hevents, hs]
    simp
  · rcases List.mem_append.1 he with he | he
    · exact hb e he
    · exact hall e (List.mem_reverse.1 he)

theorem HandedOver.step_env {r : Response} {s : Course σ ε} (h : s.HandedOver r) {x : Step}
    (hx : ∀ cb, x ≠ .call cb) : (s.step x).HandedOver r ∧ (s.step x).upgrade = s.upgrade := by
  cases x with
  | call cb => exact absurd rfl (hx cb)
  | callSuccessor cb =>
    rcases hk : s.successor with - | k
    · rw [show s.step (.callSuccessor cb) = s by simp [step, hk]]
      exact ⟨h, rfl⟩
    · -- What a channel adds to the log is never a report or the change of the handler.
      have hgrows := Channel.grows_react { k with link := s.host.link } s.host.input cb
      refine ⟨h.of_grows (by simpa [step, hk] using hgrows) ?_, ?_⟩ <;> simp [step, hk]
  | arrive pieces => exact ⟨h.of_grows (.refl _) rfl, rfl⟩
  | executor takes => exact ⟨h.of_grows (.refl _) rfl, rfl⟩
  | runTasks => exact ⟨h.of_grows (.foldl Link.grows_transmit _ _) rfl, rfl⟩
  | submit o => exact ⟨h.of_grows (Link.grows_submit _ o) rfl, rfl⟩
  | onWrite sends => exact ⟨h.of_grows (.of_log_eq rfl) rfl, rfl⟩

/-! ### Calls of the upgrade -/

theorem step_call_of_done {s : Course σ ε} (hs : s.upgrade.state = .done) (cb : Callback) :
    s.step (.call cb) = s := by
  simp [step, advance, Upgrade.react_of_done hs, events]

/-- How a handshake stands. -/
inductive Standing (s : Course σ ε) : Prop
  | undecided (h : s.Alone []) (hs : s.upgrade.state ≠ .done)
  | failed (e : Error) (h : s.Alone (.failed e :: teardown e.kind))
      (hs : s.upgrade.state = .done)
  | upgraded (r : Response) (h : s.HandedOver r) (hs : s.upgrade.state = .done)

omit [Extension ε] [Session σ] in
theorem filter_teardown (k : Kind) :
    (teardown k).filter Event.isMilestone = teardown k := by
  cases k <;> rfl

omit [Extension ε] [Session σ] in
theorem calls_advance {s : Course σ ε} {turn : Upgrade.Turn σ ε} {E : List Event}
    (hE : turn.host.link.events = s.events ++ E) : (s.advance turn).calls = s.calls ++ E := by
  simp [advance, hE]

omit [Extension ε] [Session σ] in
theorem Alone.undecided_advance {s : Course σ ε} {turn : Upgrade.Turn σ ε} (h : s.Alone [])
    (hk : turn.successor = none) (hl : s.host.link.Passes turn.host.link) :
    (s.advance turn).Alone [] := by
  obtain ⟨E, hE, hm⟩ := hl.events
  refine ⟨hl.unconnected, ?_, ?_, by simp [advance, hk, h.successor]⟩
  · show turn.host.link.events.filter Event.isMilestone = []
    rw [hE, List.filter_append, hm, List.append_nil]
    exact h.milestones
  · rw [calls_advance hE, List.filter_append, h.calls, hm, List.append_nil]

omit [Extension ε] [Session σ] in
theorem Alone.failed_advance {s : Course σ ε} {turn : Upgrade.Turn σ ε} {e : Error} {l : Link ε}
    (h : s.Alone []) (hl : s.host.link.Passes l) (hk : turn.successor = none)
    (hu : turn.host.link.Unconnected)
    (he : turn.host.link.events = l.events ++ .failed e :: teardown e.kind) :
    (s.advance turn).Alone (.failed e :: teardown e.kind) := by
  obtain ⟨E, hE, hm⟩ := hl.events
  have hE' : turn.host.link.events = s.events ++ (E ++ .failed e :: teardown e.kind) := by
    rw [he, hE, List.append_assoc]; rfl
  have hnew : (E ++ .failed e :: teardown e.kind).filter Event.isMilestone
      = .failed e :: teardown e.kind := by
    rw [List.filter_append, hm, List.filter_cons_of_pos rfl, filter_teardown, List.nil_append]
  refine ⟨hu, ?_, ?_, by simp [advance, hk, h.successor]⟩
  · show turn.host.link.events.filter Event.isMilestone = _
    rw [hE', List.filter_append, hnew, h.milestones, List.nil_append]
  · rw [calls_advance hE', List.filter_append, h.calls, hnew, List.nil_append]

omit [Extension ε] [Session σ] in
theorem Alone.handedOver_advance {s : Course σ ε} {turn : Upgrade.Turn σ ε} {r : Response}
    {l : Link ε} (h : s.Alone []) (hl : s.host.link.Passes l)
    (he : turn.host.link.events = l.events ++ [.upgraded r, .replaceHandler]) :
    (s.advance turn).HandedOver r := by
  obtain ⟨E, hE, hm⟩ := hl.events
  have hE' : turn.host.link.events = s.events ++ (E ++ [.upgraded r, .replaceHandler]) := by
    rw [he, hE, List.append_assoc]; rfl
  refine ⟨?_, s.events ++ E, [], ?_, ?_, List.forall_mem_nil _⟩
  · rw [calls_advance hE', List.filter_append, List.filter_append, h.calls, hm]
    rfl
  · exact hE'.trans (List.append_assoc ..).symm
  · rw [List.filter_append, h.milestones, hm, List.nil_append]

/-- A call decides the outcome at most, and then brings about the milestones that belong
to it. -/
theorem Alone.standing_call {s : Course σ ε} (h : s.Alone []) (hs : s.upgrade.state ≠ .done)
    (cb : Callback) : (s.step (.call cb)).Standing := by
  have hexit := Upgrade.exit_react hs h.unconnected cb
  -- All that matters about the call is its exit.
  rw [step]
  generalize s.upgrade.react s.host cb = turn at hexit
  cases hexit with
  | undecided hs' hk hl => exact .undecided (h.undecided_advance hk hl) hs'
  | failed e l hl hs' hk hu he => exact .failed e (h.failed_advance hl hk hu he) hs'
  | upgraded r l hl hs' he => exact .upgraded r (h.handedOver_advance hl he) hs'

/-! ### Runs -/

/-- What every step preserves, every run preserves. -/
theorem run_of_step {P : Course σ ε → Prop} (hstep : ∀ s x, P s → P (s.step x))
    {s : Course σ ε} (h : P s) (steps : List Step) : P (s.run steps) := by
  induction steps generalizing s with
  | nil => exact h
  | cons x steps ih => exact ih (hstep s x h)

/-- Behind a failure nothing of importance happens any more. -/
theorem Alone.step_of_done {ms : List Event} {s : Course σ ε} (h : s.Alone ms)
    (hs : s.upgrade.state = .done) (x : Step) :
    (s.step x).Alone ms ∧ (s.step x).upgrade.state = .done := by
  by_cases hx : ∃ cb, x = .call cb
  · obtain ⟨cb, rfl⟩ := hx
    rw [step_call_of_done hs]
    exact ⟨h, hs⟩
  · obtain ⟨h', hu⟩ := h.step_env (not_exists.1 hx)
    exact ⟨h', by rw [hu, hs]⟩

theorem HandedOver.step_of_done {r : Response} {s : Course σ ε} (h : s.HandedOver r)
    (hs : s.upgrade.state = .done) (x : Step) :
    (s.step x).HandedOver r ∧ (s.step x).upgrade.state = .done := by
  by_cases hx : ∃ cb, x = .call cb
  · obtain ⟨cb, rfl⟩ := hx
    rw [step_call_of_done hs]
    exact ⟨h, hs⟩
  · obtain ⟨h', hu⟩ := h.step_env (not_exists.1 hx)
    exact ⟨h', by rw [hu, hs]⟩

theorem Standing.step {s : Course σ ε} (h : s.Standing) (x : Step) : (s.step x).Standing := by
  cases h with
  | undecided h hs =>
    by_cases hx : ∃ cb, x = .call cb
    · obtain ⟨cb, rfl⟩ := hx
      exact h.standing_call hs cb
    · obtain ⟨h', hu⟩ := h.step_env (not_exists.1 hx)
      exact .undecided h' (by rw [hu]; exact hs)
  | failed e h hs =>
    obtain ⟨h', hs'⟩ := h.step_of_done hs x
    exact .failed e h' hs'
  | upgraded r h hs =>
    obtain ⟨h', hs'⟩ := h.step_of_done hs x
    exact .upgraded r h' hs'

theorem standing_run (u : Upgrade σ ε) (session : σ) (host : Host ε) (keys : Nat → UInt32)
    (steps : List Step) : ((start u session host keys).run steps).Standing :=
  run_of_step (fun _ x h => h.step x) (.undecided ⟨⟨rfl, rfl, rfl⟩, rfl, rfl, rfl⟩ nofun) steps

/-! ### The outcome -/

/-- No outcome is known: nothing was reported and nothing torn down, and nothing was or
can be sent. -/
structure Undecided (s : Course σ ε) : Prop where
  state : s.upgrade.state ≠ .done
  reports : s.events.filter Event.isReport = []
  milestones : s.events.filter Event.isMilestone = []
  refused : ∀ f, s.host.link.send f = (s.host.link, .error .notConnected)

/-- The failure was reported, and the teardown that belongs to it is all that followed.
Nothing was or can be sent. -/
structure Failed (e : Error) (s : Course σ ε) : Prop where
  state : s.upgrade.state = .done
  reports : s.events.filter Event.isReport = [.failed e]
  milestones : s.events.filter Event.isMilestone = .failed e :: teardown e.kind
  refused : ∀ f, s.host.link.send f = (s.host.link, .error .notConnected)

/-- The success was reported, and the endpoint was given another handler, once.  The
upgrade did nothing else, and before the report nothing was sent. -/
structure Succeeded (r : Response) (s : Course σ ε) : Prop where
  state : s.upgrade.state = .done
  reports : s.events.filter Event.isReport = [.upgraded r]
  handlers : s.events.count .replaceHandler = 1
  calls : s.calls.filter Event.isMilestone = [.upgraded r, .replaceHandler]
  before : ∃ front back, s.events = front ++ .upgraded r :: back
    ∧ front.filter Event.isMilestone = []

omit [Extension ε] [Session σ] in
/-- Reports are found among the milestones. -/
theorem filter_isReport (E : List Event) :
    E.filter Event.isReport = (E.filter Event.isMilestone).filter Event.isReport := by
  rw [List.filter_filter]
  refine List.filter_congr fun e _ => ?_
  cases h : e.isReport
  · rfl
  · simp [Event.isMilestone_of_isReport h]

omit [Session σ] in
theorem Alone.undecided {s : Course σ ε} (h : s.Alone []) (hs : s.upgrade.state ≠ .done) :
    s.Undecided :=
  ⟨hs, by rw [filter_isReport, h.milestones]; rfl, h.milestones, h.unconnected.send_eq⟩

omit [Session σ] in
theorem Alone.failed {e : Error} {s : Course σ ε} (h : s.Alone (.failed e :: teardown e.kind))
    (hs : s.upgrade.state = .done) : s.Failed e := by
  refine ⟨hs, ?_, h.milestones, h.unconnected.send_eq⟩
  rw [filter_isReport, h.milestones]
  cases e.kind <;> rfl

omit [Extension ε] [Session σ] in
theorem HandedOver.succeeded {r : Response} {s : Course σ ε} (h : s.HandedOver r)
    (hs : s.upgrade.state = .done) : s.Succeeded r := by
  obtain ⟨front, back, hE, hf, hb⟩ := h.events
  have hno {e : Event} (he : e.isMilestone) : e ∉ front := by
    intro hmem
    have := List.mem_filter.2 ⟨hmem, he⟩
    rw [hf] at this
    cases this
  have hback : back.filter Event.isReport = [] :=
    List.filter_eq_nil_iff.2 fun e he => Event.not_isReport_of_ofChannel (hb e he)
  refine ⟨hs, ?_, ?_, h.calls, front, _, hE, hf⟩
  · rw [hE, List.filter_append, filter_isReport front, hf]
    exact congrArg (.upgraded r :: ·) hback
  · have hrest : Event.replaceHandler ∉ back := fun hmem => by cases hb _ hmem
    rw [hE, List.count_append, List.count_eq_zero.2 (hno rfl)]
    simp [List.count_eq_zero.2 hrest]

/-- **A handshake has one outcome.**  Whatever is called, arrives, is sent and is taken or
refused by the executor, in whatever order: a handshake either has no outcome yet, or it
has failed and this is what it stays at, or it has succeeded and this is what it stays at.
When the outcome is known, the upgrade is done, and no call of it does anything any
more. -/
theorem outcome_of_run (u : Upgrade σ ε) (session : σ) (host : Host ε) (keys : Nat → UInt32)
    (steps : List Step) :
    let s := (start u session host keys).run steps
    (s.Undecided
      ∨ (∃ e, ∀ later, (s.run later).Failed e)
      ∨ ∃ r, ∀ later, (s.run later).Succeeded r)
    ∧ (s.upgrade.state = .done →
      ∀ host cb, s.upgrade.react host cb = { upgrade := s.upgrade, host }) := by
  intro s
  refine ⟨?_, fun hs => Upgrade.react_of_done hs⟩
  -- Once the upgrade is done, its standing is an invariant of all that comes later.
  cases standing_run u session host keys steps with
  | undecided h hs => exact .inl (h.undecided hs)
  | failed e h hs =>
    refine .inr (.inl ⟨e, fun later => ?_⟩)
    obtain ⟨h', hs'⟩ := run_of_step (P := fun s => s.Alone (.failed e :: teardown e.kind)
      ∧ s.upgrade.state = .done) (fun s x h => h.1.step_of_done h.2 x) ⟨h, hs⟩ later
    exact h'.failed hs'
  | upgraded r h hs =>
    refine .inr (.inr ⟨r, fun later => ?_⟩)
    obtain ⟨h', hs'⟩ := run_of_step (P := fun s => s.HandedOver r ∧ s.upgrade.state = .done)
      (fun s x h => h.1.step_of_done h.2 x) ⟨h, hs⟩ later
    exact h'.succeeded hs'

end Course

end Handshake

end WebSocket
