/-
WebSocket/Proofs/Client/ReadInterest.lean

Who waits for octets has asked for them, and nobody asks twice.

Design.  The endpoint of a client is driven by a reactor.  It knows whether it is to give word
of octets, gives word at most once for each time that it was asked, and reports the end of no
write that was not started (`Reactor.admits`).  It is told what the client does, and notes as a
`Breach` when it is asked at a wrong time.

Behind each call and each other action the client is in one of five stages (`Stage`): the
request was not written yet, first without and then with its task; the response is awaited; a
channel is open; or it is over.  In the third and the fourth the reactor is armed, and in none
of the others was it ever asked for anything.  The stages are kept by every action
(`Keeps.act`), so by every run.  Where the endpoint is handed over, the channel is called within
the same action, and `Channel.Listens` says how that call ends.
-/
import WebSocket.Proofs.Channel.ReadInterest
import WebSocket.Proofs.Client.Alike
import WebSocket.Proofs.Handshake.RequestTask

namespace WebSocket

/-! ### The reactor -/

/-- A wrong time at which the reactor is asked to give word. -/
inductive Breach where
  /-- It was asked before and has not given word yet. -/
  | armedTwice
  /-- The endpoint was closed. -/
  | armedBehindClose
  /-- The request was not written. -/
  | armedEarly
  deriving DecidableEq, Repr

/-- What the reactor knows of a client. -/
structure Reactor where
  /-- The request of the handshake. -/
  request : Bytes
  /-- Whether it is to give word when octets arrive. -/
  armed : Bool := false
  /-- Whether the first handler was told that it is the handler. -/
  opened : Bool := false
  /-- Whether the endpoint was closed. -/
  closed : Bool := false
  /-- The writes that were started, in order. -/
  started : List Bytes := []
  /-- How many of them were reported to have ended. -/
  completed : Nat := 0
  /-- Whether the write of the request was reported to have succeeded. -/
  requestWritten : Bool := false
  breaches : List Breach := []
  deriving DecidableEq, Repr

namespace Reactor

/-- What would be wrong if the reactor were asked to give word now. -/
def objections (r : Reactor) : List Breach :=
  (if r.armed then [.armedTwice] else []) ++ (if r.closed then [.armedBehindClose] else [])
    ++ if r.requestWritten then [] else [.armedEarly]

/-- The reactor is told of something that happens. -/
def see (r : Reactor) : Event → Reactor
  | .fillInterested => { r with armed := true, breaches := r.breaches ++ r.objections }
  | .write octets => { r with started := r.started ++ [octets] }
  | .close => { r with closed := true }
  | _ => r

/-- The reactor is told of all that happens in a call. -/
def seeAll (r : Reactor) (E : List Event) : Reactor :=
  E.foldl see r

/-- Whether the reactor may let this befall the client. -/
def admits (r : Reactor) : Client.Action → Bool
  | .call .opened => !r.opened
  | .call .readable => r.armed
  | .call (.written _) => r.completed < r.started.length
  | _ => true

/-- What the reactor remembers of what it is about to do. -/
def prior (r : Reactor) : Client.Action → Reactor
  | .call .opened => { r with opened := true }
  | .call .readable => { r with armed := false }
  | .call (.written failure) =>
    { r with
      completed := r.completed + 1
      requestWritten := r.requestWritten
        || (failure.isNone && r.started[r.completed]? = some r.request) }
  | _ => r

/-- Where nobody asks it to give word, the reactor only learns of writes and of the end. -/
theorem seeAll_of_quiet {E : List Event} (h : .fillInterested ∉ E) (r : Reactor) :
    r.seeAll E = { r with
      started := r.started ++ E.filterMap Event.written?
      closed := r.closed || decide (.close ∈ E) } := by
  induction E generalizing r with
  | nil => simp [seeAll]
  | cons e E ih =>
    obtain ⟨he, hE⟩ := not_or.1 (mt List.mem_cons.2 h)
    have hcons : r.seeAll (e :: E) = (r.see e).seeAll E := rfl
    rw [hcons, ih hE]
    cases e <;> first | exact absurd rfl he | simp [see, List.filterMap_cons, Event.written?]

@[simp] theorem started_prior (r : Reactor) (a : Client.Action) :
    (r.prior a).started = r.started := by
  unfold prior
  split <;> rfl

@[simp] theorem breaches_prior (r : Reactor) (a : Client.Action) :
    (r.prior a).breaches = r.breaches := by
  unfold prior
  split <;> rfl

theorem prior_of_not_call {r : Reactor} {a : Client.Action} (ha : ∀ cb, a ≠ .call cb) :
    r.prior a = r := by
  unfold prior
  split <;> first | rfl | exact absurd rfl (ha _)

/-- It was not asked for anything yet, and no write has ended. -/
structure Begins (r : Reactor) : Prop where
  armed : r.armed = false
  closed : r.closed = false
  completed : r.completed = 0

/-- It is to give word, or it has just given it. -/
structure Attends (armed : Bool) (r : Reactor) : Prop where
  armed_eq : r.armed = armed
  opened : r.opened = true
  closed : r.closed = false
  requestWritten : r.requestWritten = true

/-- The end of a later write means nothing. -/
theorem Attends.written {armed : Bool} {r : Reactor} (h : r.Attends armed)
    (failure : Option String) : (r.prior (.call (.written failure))).Attends armed :=
  ⟨h.armed_eq, h.opened, h.closed, by simp [prior, h.requestWritten]⟩

theorem Begins.seeAll {r : Reactor} (h : r.Begins) {E : List Event} (hE : .fillInterested ∉ E)
    (hclose : .close ∉ E) : (r.seeAll E).Begins := by
  rw [seeAll_of_quiet hE]
  exact ⟨h.armed, by simp [h.closed, hclose], h.completed⟩

theorem Attends.seeAll {armed : Bool} {r : Reactor} (h : r.Attends armed) {E : List Event}
    (hE : .fillInterested ∉ E) (hclose : .close ∉ E) : (r.seeAll E).Attends armed := by
  rw [seeAll_of_quiet hE]
  exact ⟨h.armed_eq, h.opened, by simp [h.closed, hclose], h.requestWritten⟩

/-- Who has given word can be asked again. -/
theorem Attends.asked {r : Reactor} (h : r.Attends false) :
    (r.see .fillInterested).Attends true ∧ (r.see .fillInterested).breaches = r.breaches :=
  ⟨⟨rfl, h.opened, h.closed, h.requestWritten⟩,
    by simp [see, objections, h.armed_eq, h.closed, h.requestWritten]⟩

end Reactor

/-- Whether the response is awaited. -/
def Handshake.Upgrade.State.isReading {σ : Type} : State σ → Bool
  | reading _ => true
  | connecting _ | sending _ | done => false

namespace Client

variable {σ ε : Type}

/-- Whether the handler waits for octets. -/
def waits (c : Client σ ε) : Bool :=
  match c.handler with
  | none => false
  | some (.upgrade u) => u.state.isReading
  | some (.connection k) => !k.closed

theorem written_of_events {c c' : Client σ ε} {E : List Event}
    (hE : c'.events = c.events ++ E) :
    c'.link.written = c.link.written ++ E.filterMap Event.written? := by
  show List.filterMap _ c'.events = _
  rw [hE, List.filterMap_append]
  rfl

/-- A client and the reactor that drives it. -/
structure Driven (σ ε : Type) where
  client : Client σ ε
  reactor : Reactor

namespace Driven

/-- A handshake that has not begun, on a link that is not used yet, and a reactor. -/
def start (u : Handshake.Upgrade σ ε) (session : σ) (host : Host ε) (keys : Nat → UInt32) :
    Driven σ ε where
  client := ofUpgrade { host with link := { keys }, tasks := [] }
    { u with state := .connecting session }
  reactor := { request := u.request.encode }

variable [Session σ] [Extension ε]

/-- Lets an action befall the client, and tells the reactor what comes of it. -/
def act (x : Driven σ ε) (a : Action) : Driven σ ε :=
  let client := (x.client.act a).1
  { client, reactor := (x.reactor.prior a).seeAll (client.events.drop x.client.events.length) }

/-- Lets one action after the other befall the client. -/
def run (x : Driven σ ε) (actions : List Action) : Driven σ ε :=
  actions.foldl act x

/-- Whether the reactor may let all of this happen, one after the other. -/
def admits (x : Driven σ ε) : List Action → Bool
  | [] => true
  | a :: actions => x.reactor.admits a && (x.act a).admits actions

theorem act_of_events {x : Driven σ ε} {a : Action} {E : List Event}
    (hE : (x.client.act a).1.events = x.client.events ++ E) :
    x.act a = { client := (x.client.act a).1, reactor := (x.reactor.prior a).seeAll E } := by
  simp [act, hE]

/-! ### The stages of a client -/

/-- What was written and what waits to be written, in order. -/
def due (x : Driven σ ε) : List Bytes :=
  x.client.link.written ++ x.client.tasks

end Driven

/-- Nothing that the endpoint may be called for matters any more. -/
def Retired (c : Client σ ε) : Prop :=
  match c.handler with
  | none => True
  | some (.upgrade u) => u.state = .done
  | some (.connection k) => k.closed

namespace Driven

/-- How far a client has come. -/
inductive Stage (x : Driven σ ε) : Prop
  | connecting {u : Handshake.Upgrade σ ε} {session : σ}
      (hh : x.client.handler = some (.upgrade u)) (hs : u.state = .connecting session)
      (hu : u.request.encode = x.reactor.request) (hl : x.client.link.Unconnected)
      (hr : x.reactor.Begins) (hdue : x.due = [])
  | sending {u : Handshake.Upgrade σ ε} {session : σ}
      (hh : x.client.handler = some (.upgrade u)) (hs : u.state = .sending session)
      (hl : x.client.link.Unconnected) (hr : x.reactor.Begins) (hopened : x.reactor.opened)
      (hdue : x.due = [x.reactor.request])
  | reading {u : Handshake.Upgrade σ ε} {session : σ}
      (hh : x.client.handler = some (.upgrade u)) (hs : u.state = .reading session)
      (hl : x.client.link.Unconnected) (hr : x.reactor.Attends true)
  | channel {k : Connection σ} (hh : x.client.handler = some (.connection k))
      (hk : k.closed = false) (hl : x.client.link.closed = false) (hr : x.reactor.Attends true)
  | retired (h : x.client.Retired)

/-- The reactor knows what was written and has nothing to object to. -/
structure Keeps (x : Driven σ ε) : Prop where
  started : x.reactor.started = x.client.link.written
  breaches : x.reactor.breaches = []
  stage : x.Stage

variable [Session σ] [Extension ε] {x : Driven σ ε} {a : Action} {E : List Event}

/-- An action in which the reactor is asked for nothing keeps it all, if the client gets into
one of the stages. -/
theorem Keeps.of_quiet (h : x.Keeps) (hE : (x.client.act a).1.events = x.client.events ++ E)
    (hquiet : .fillInterested ∉ E) (hstage : (x.act a).Stage) : (x.act a).Keeps := by
  refine ⟨?_, ?_, hstage⟩
  · rw [act_of_events hE, Reactor.seeAll_of_quiet hquiet, written_of_events hE, ← h.started,
      Reactor.started_prior]
  · rw [act_of_events hE, Reactor.seeAll_of_quiet hquiet]
    exact (x.reactor.breaches_prior a).trans h.breaches

/-- So does an action at the end of which it is asked, when it has given word. -/
theorem Keeps.of_asked (h : x.Keeps) (hr : (x.reactor.prior a).Attends false)
    (hE : (x.client.act a).1.events = x.client.events ++ (E ++ [.fillInterested]))
    (hquiet : .fillInterested ∉ E) (hclose : .close ∉ E)
    (hstage : (x.act a).reactor.Attends true → (x.act a).Stage) : (x.act a).Keeps := by
  have hwritten : (x.client.act a).1.link.written
      = x.client.link.written ++ E.filterMap Event.written? := by
    rw [written_of_events hE, List.filterMap_append]
    exact congrArg _ (List.append_nil _)
  have hreactor : (x.act a).reactor = ((x.reactor.prior a).seeAll E).see .fillInterested := by
    rw [act_of_events hE]
    exact List.foldl_append
  obtain ⟨hattends, hnone⟩ := (hr.seeAll hquiet hclose).asked
  rw [← hreactor] at hattends hnone
  refine ⟨?_, ?_, hstage hattends⟩
  · rw [hreactor, Reactor.seeAll_of_quiet hquiet]
    show (x.reactor.prior a).started ++ _ = (x.client.act a).1.link.written
    rw [hwritten, ← h.started, Reactor.started_prior]
  · rw [hnone, Reactor.seeAll_of_quiet hquiet]
    exact (x.reactor.breaches_prior a).trans h.breaches

/-! ### What is no call -/

end Driven

section Aside

variable [Session σ] [Extension ε]

/-- What is no call of the handler neither asks the reactor for anything nor closes the
endpoint. -/
theorem exists_aside (c : Client σ ε) {a : Action} (ha : ∀ cb, a ≠ .call cb) :
    ∃ E, (c.act a).1.events = c.events ++ E ∧ .fillInterested ∉ E ∧ .close ∉ E
      ∧ (c.act a).1.link.closed = c.link.closed := by
  have hsending {l : Link ε} (h : c.link.Sending l) :
      ∃ E, l.events = c.link.events ++ E ∧ .fillInterested ∉ E ∧ .close ∉ E
        ∧ l.closed = c.link.closed := by
    obtain ⟨E, hE, hall⟩ := h.events
    exact ⟨E, hE, fun hmem => absurd (hall _ hmem) Bool.false_ne_true,
      fun hmem => absurd (hall _ hmem) Bool.false_ne_true, h.settings.1⟩
  cases a with
  | call cb => exact absurd rfl (ha cb)
  | arrive pieces => exact hsending .refl
  | submit o => exact hsending (Link.sending_submit c.link o)
  | onNextWrite sends => exact hsending (.queue .refl [sends] c.link.pending c.link.writing)
  | runTasks => exact hsending (Link.Sending.foldl Link.sending_transmit c.link c.tasks)
  | dropHandler =>
    show ∃ E, c.dropHandler.link.events = c.link.events ++ E ∧ _ ∧ _
      ∧ c.dropHandler.link.closed = c.link.closed
    unfold dropHandler
    split
    · exact hsending .refl
    · exact hsending .refl
    · exact hsending .refl
    · exact ⟨[.failed .aborted], Link.events_record _ _, by simp, by simp, rfl⟩

/-- Before there is a channel, it does not change what is due. -/
theorem due_aside {c : Client σ ε} (hl : c.link.Unconnected) {a : Action}
    (ha : ∀ cb, a ≠ .call cb) :
    (c.act a).1.link.Unconnected
      ∧ (c.act a).1.link.written ++ (c.act a).1.tasks = c.link.written ++ c.tasks := by
  cases a with
  | call cb => exact absurd rfl (ha cb)
  | arrive pieces => exact ⟨hl, rfl⟩
  | submit o =>
    obtain ⟨e, he⟩ := hl.submit_eq o
    have hsame : (c.act (.submit o)).1 = c := by simp only [act, submit, he]
    rw [hsame]
    exact ⟨hl, rfl⟩
  | onNextWrite sends => exact ⟨⟨hl.chain, hl.closed, hl.closeSent⟩, rfl⟩
  | runTasks =>
    refine ⟨(hl.passes_foldl (fun _ octets h => h.passes_transmit octets) c.tasks).unconnected, ?_⟩
    show (c.tasks.foldl Link.transmit c.link).written ++ [] = _
    rw [hl.written_foldl_transmit, List.append_nil]
  | dropHandler =>
    show c.dropHandler.link.Unconnected ∧ c.dropHandler.link.written ++ c.dropHandler.tasks = _
    unfold dropHandler
    split
    · exact ⟨hl, rfl⟩
    · exact ⟨hl, rfl⟩
    · exact ⟨hl, rfl⟩
    · exact ⟨⟨hl.chain, hl.closed, hl.closeSent⟩, by rw [Link.written_record _ rfl]⟩

theorem handler_aside (c : Client σ ε) {a : Action} (ha : ∀ cb, a ≠ .call cb) :
    (c.act a).1.handler = c.handler ∨ (c.act a).1.handler = none := by
  cases a with
  | call cb => exact absurd rfl (ha cb)
  | arrive | submit | onNextWrite | runTasks => exact .inl rfl
  | dropHandler =>
    show c.dropHandler.handler = c.handler ∨ c.dropHandler.handler = none
    unfold dropHandler
    split <;> exact .inr rfl

end Aside

namespace Driven

variable [Session σ] [Extension ε] {x : Driven σ ε}

theorem Keeps.aside (h : x.Keeps) {a : Action} (ha : ∀ cb, a ≠ .call cb) : (x.act a).Keeps := by
  obtain ⟨E, hE, hquiet, hclose, hclosed⟩ := x.client.exists_aside ha
  refine h.of_quiet hE hquiet ?_
  rw [act_of_events hE, Reactor.prior_of_not_call ha]
  rcases x.client.handler_aside ha with hsame | hnone
  · have hseen := Reactor.seeAll_of_quiet hquiet x.reactor
    cases h.stage with
    | @connecting u session hh hs hu hl hr hdue =>
      obtain ⟨hl', hdue'⟩ := due_aside hl ha
      exact .connecting (hsame.trans hh) hs (by rw [hseen]; exact hu) hl'
        (hr.seeAll hquiet hclose) (hdue'.trans hdue)
    | @sending u session hh hs hl hr hopened hdue =>
      obtain ⟨hl', hdue'⟩ := due_aside hl ha
      exact .sending (hsame.trans hh) hs hl' (hr.seeAll hquiet hclose)
        (by rw [hseen]; exact hopened) (by rw [hseen]; exact hdue'.trans hdue)
    | reading hh hs hl hr =>
      exact .reading (hsame.trans hh) hs (due_aside hl ha).1 (hr.seeAll hquiet hclose)
    | channel hh hk hl hr =>
      exact .channel (hsame.trans hh) hk (hclosed.trans hl) (hr.seeAll hquiet hclose)
    | retired hretired =>
      refine .retired ?_
      show (x.client.act a).1.Retired
      rw [Retired, hsame]
      exact hretired
  · exact .retired (by simp only [Retired, hnone])

/-! ### Calls -/

end Driven

section Ends

variable [Session σ] [Extension ε]

omit [Session σ] [Extension ε] in
theorem quiet_fail (u : Handshake.Upgrade σ ε) (host : Host ε) (e : Handshake.Error) :
    host.link.Quiet (u.fail host e).host.link := by
  have hreport : host.link.Quiet (host.record (.failed e)).link := .record _ Event.noConfusion
  unfold Handshake.Upgrade.fail
  dsimp only
  split
  · exact hreport.trans (.record _ Event.noConfusion)
  · exact hreport.trans ((Link.Quiet.record _ Event.noConfusion).trans
      (.record _ Event.noConfusion))

/-- When it is over, no call changes that, and the reactor is asked for nothing. -/
theorem Retired.call {c : Client σ ε} (h : c.Retired) (cb : Callback) :
    (c.call cb).Retired ∧ c.link.Quiet (c.call cb).link := by
  rcases hh : c.handler with - | u | k
  · rw [call_of_none hh]
    exact ⟨h, .refl _⟩
  · have hs : u.state = .done := by simpa only [Retired, hh] using h
    have hcall : c.call cb = { c with handler := some (.upgrade u) } := by
      simp only [Client.call, hh, Handshake.Upgrade.react_of_done hs, follow]
    rw [hcall]
    exact ⟨hs, .refl _⟩
  · have hk : k.closed := by simpa only [Retired, hh] using h
    rw [call_of_connection hh]
    exact Channel.quiet_react_of_closed hk c.input cb

omit [Session σ] [Extension ε] in
theorem Retired.waits_eq {c : Client σ ε} (h : c.Retired) : c.waits = false := by
  rcases hh : c.handler with - | u | k
  · simp only [waits, hh]
  · have hs : u.state = .done := by simpa only [Retired, hh] using h
    simp only [waits, hh, hs, Handshake.Upgrade.State.isReading]
  · have hk : k.closed := by simpa only [Retired, hh] using h
    simp only [waits, hh, hk, Bool.not_true]

end Ends

namespace Driven

variable [Session σ] [Extension ε] {x : Driven σ ε}

theorem Keeps.of_retired (h : x.Keeps) {cb : Callback} (hretired : (x.client.call cb).Retired)
    (hquiet : x.client.link.Quiet (x.client.call cb).link) : (x.act (.call cb)).Keeps := by
  obtain ⟨E, hE, hnot⟩ := hquiet
  exact h.of_quiet hE hnot (.retired hretired)

/-- A call that does nothing but take the handler further. -/
theorem Keeps.of_events_eq (h : x.Keeps) {cb : Callback} {c : Client σ ε}
    (hcall : x.client.call cb = c) (hevents : c.events = x.client.events)
    (hstage : Stage { client := c, reactor := x.reactor.prior (.call cb) }) :
    (x.act (.call cb)).Keeps := by
  have hE : (x.client.act (.call cb)).1.events = x.client.events ++ [] := by
    rw [List.append_nil, ← hevents, ← hcall]
    rfl
  refine h.of_quiet hE List.not_mem_nil ?_
  rw [act_of_events hE]
  subst hcall
  exact hstage

theorem Keeps.of_fail (h : x.Keeps) {cb : Callback} {u : Handshake.Upgrade σ ε} {host : Host ε}
    {e : Handshake.Error} (hcall : x.client.call cb = follow (u.fail host e))
    (hquiet : x.client.link.Quiet host.link) : (x.act (.call cb)).Keeps := by
  refine h.of_retired ?_ ?_
  · rw [hcall]
    exact rfl
  · rw [hcall]
    exact hquiet.trans (quiet_fail u host e)

theorem Keeps.call_aborted (h : x.Keeps) {u : Handshake.Upgrade σ ε}
    (hh : x.client.handler = some (.upgrade u)) (hs : u.state ≠ .done) :
    (x.act (.call .aborted)).Keeps := by
  have hfail : u.react x.client.toHost .aborted = u.fail x.client.toHost .aborted := by
    simp only [Handshake.Upgrade.react, Handshake.Upgrade.aborted]
  have hcall : x.client.call .aborted = follow (u.fail x.client.toHost .aborted) := by
    simp only [call, hh, hfail]
  exact h.of_fail hcall (.refl _)

/-- A channel has read at the end of the call. -/
theorem Keeps.of_listens (h : x.Keeps) {cb : Callback} {b c : Channel σ ε} {front : List Event}
    (hr : (x.reactor.prior (.call cb)).Attends false)
    (hfront : b.link.events = x.client.events ++ front) (hquiet : .fillInterested ∉ front)
    (hclose : .close ∉ front) (hlistens : b.Listens c) (hlink : (x.client.call cb).link = c.link)
    (hhandler : (x.client.call cb).handler = some (.connection c.toConnection)) :
    (x.act (.call cb)).Keeps := by
  cases hlistens with
  | closed hc hquiet' =>
    refine h.of_retired (by simpa only [Retired, hhandler] using hc) ?_
    rw [hlink]
    exact Link.Quiet.trans ⟨front, hfront, hquiet⟩ hquiet'
  | @waits E hc hl hE hquiet' hclose' =>
    refine h.of_asked (E := front ++ E) hr ?_ (by simp [hquiet, hquiet'])
      (by simp [hclose, hclose']) fun hr' => .channel hhandler hc (by rw [← hl, ← hlink]; rfl) hr'
    show (x.client.call cb).link.events = _
    rw [hlink, hE, hfront, List.append_assoc, List.append_assoc]

/-- The handshake has not begun: the endpoint opens, or the upgrade is aborted. -/
theorem Keeps.call_connecting (h : x.Keeps) {u : Handshake.Upgrade σ ε} {session : σ}
    (hh : x.client.handler = some (.upgrade u)) (hs : u.state = .connecting session)
    (hu : u.request.encode = x.reactor.request) (hl : x.client.link.Unconnected)
    (hr : x.reactor.Begins) (hdue : x.due = []) {cb : Callback}
    (hadmits : x.reactor.admits (.call cb)) : (x.act (.call cb)).Keeps := by
  obtain ⟨hwritten, htasks⟩ := List.append_eq_nil_iff.1 hdue
  have hcall : x.client.call cb = follow (u.react x.client.toHost cb) := by simp only [call, hh]
  cases cb with
  | opened =>
    rcases htakes : x.client.takesTasks with - | -
    · have hfail : u.react x.client.toHost .opened = u.fail x.client.toHost .spawn := by
        simp [Handshake.Upgrade.react, Handshake.Upgrade.opened, hs, htakes]
      exact h.of_fail (hcall.trans (congrArg follow hfail)) (.refl _)
    · have hnow : x.client.call .opened = { x.client with
          tasks := x.client.tasks ++ [u.request.encode]
          handler := some (.upgrade { u with state := .sending session }) } := by
        rw [hcall]
        simp [Handshake.Upgrade.react, Handshake.Upgrade.opened, Handshake.Upgrade.become, hs,
          htakes, follow]
      refine h.of_events_eq hnow rfl
        (.sending rfl rfl hl ⟨hr.armed, hr.closed, hr.completed⟩ rfl ?_)
      show x.client.link.written ++ (x.client.tasks ++ [u.request.encode]) = _
      rw [hwritten, htasks, hu]
      rfl
  | readable => exact absurd hadmits (by simp [Reactor.admits, hr.armed])
  | written failure => exact absurd hadmits (by simp [Reactor.admits, h.started, hwritten])
  | aborted => exact h.call_aborted hh (by simp [hs])

/-- The write of the request ends, or the upgrade is aborted. -/
theorem Keeps.call_sending (h : x.Keeps) {u : Handshake.Upgrade σ ε} {session : σ}
    (hh : x.client.handler = some (.upgrade u)) (hs : u.state = .sending session)
    (hl : x.client.link.Unconnected) (hr : x.reactor.Begins) (hopened : x.reactor.opened)
    (hdue : x.due = [x.reactor.request]) {cb : Callback}
    (hadmits : x.reactor.admits (.call cb)) : (x.act (.call cb)).Keeps := by
  have hcall : x.client.call cb = follow (u.react x.client.toHost cb) := by simp only [call, hh]
  cases cb with
  | opened => exact absurd hadmits (by simp [Reactor.admits, hopened])
  | readable => exact absurd hadmits (by simp [Reactor.admits, hr.armed])
  | written failure =>
    rcases failure with - | message
    · have hnow : x.client.call (.written none) = { x.client with
          link := x.client.link.record .fillInterested
          handler := some (.upgrade { u with state := .reading session }) } := by
        rw [hcall]
        simp [Handshake.Upgrade.react, Handshake.Upgrade.written, Handshake.Upgrade.become, hs,
          follow, Host.record]
      -- A write has been started, and there is none but that of the request.
      have hstarted : x.reactor.started = [x.reactor.request] := by
        have hsome : x.reactor.started ≠ [] := by
          intro hnone
          simp [Reactor.admits, hnone] at hadmits
        rw [h.started] at hsome ⊢
        rcases List.append_eq_singleton_iff.1 hdue with ⟨hnone, -⟩ | ⟨hone, -⟩
        · exact absurd hnone hsome
        · exact hone
      refine h.of_asked (E := []) ⟨hr.armed, hopened, hr.closed, ?_⟩ ?_ List.not_mem_nil
        List.not_mem_nil fun hr' => ?_
      · simp [Reactor.prior, hr.completed, hstarted]
      · show (x.client.call (.written none)).link.events = _
        rw [hnow]
        exact Link.events_record _ _
      · have hlink : (x.client.call (.written none)).link.Unconnected := by
          rw [hnow]
          exact ⟨hl.chain, hl.closed, hl.closeSent⟩
        exact .reading (congrArg Client.handler hnow) rfl hlink hr'
    · have hfail : u.react x.client.toHost (.written (some message))
          = u.fail x.client.toHost (.io message) := by
        simp [Handshake.Upgrade.react, Handshake.Upgrade.written, hs]
      exact h.of_fail (hcall.trans (congrArg follow hfail)) (.refl _)
  | aborted => exact h.call_aborted hh (by simp [hs])

/-- The reactor gives word to the upgrade, which reads: it waits for more, it fails, or it hands
the endpoint over to a channel, which reads what came behind the response. -/
theorem Keeps.call_readable_of_reading (h : x.Keeps) {u : Handshake.Upgrade σ ε} {session : σ}
    (hh : x.client.handler = some (.upgrade u)) (hs : u.state = .reading session)
    (hl : x.client.link.Unconnected) (hr : x.reactor.Attends true) :
    (x.act (.call .readable)).Keeps := by
  have hprior : (x.reactor.prior (.call .readable)).Attends false :=
    ⟨rfl, hr.opened, hr.closed, hr.requestWritten⟩
  obtain ⟨n, hread⟩ :=
    Handshake.Upgrade.exists_read_link_eq u.reader x.client.link x.client.input
  have hcall := call_of_reading hh hs
  generalize Handshake.Upgrade.read u.reader x.client.link x.client.input = r at hread hcall
  have hl' : r.link.Unconnected := by
    rw [hread]
    exact ⟨hl.chain, hl.closed, hl.closeSent⟩
  have hfills : r.link.events = x.client.events ++ List.replicate n .fill := by
    rw [hread]
    simp [Link.events, Client.events]
  have hquiet : x.client.link.Quiet r.link := ⟨_, hfills, by simp⟩
  unfold Handshake.Upgrade.conclude at hcall
  dsimp only at hcall
  split at hcall
  · exact h.of_fail hcall hquiet
  · refine h.of_asked (E := List.replicate n .fill) hprior ?_ (by simp) (by simp) fun hr' => ?_
    · show (x.client.call .readable).link.events = _
      rw [hcall, ← List.append_assoc, ← hfills]
      exact Link.events_record _ _
    · have hlink : (x.client.call .readable).link.Unconnected := by
        rw [hcall]
        exact ⟨hl'.chain, hl'.closed, hl'.closeSent⟩
      exact .reading (congrArg Client.handler hcall) rfl hlink hr'
  · next leftover _ =>
    split at hcall
    · exact h.of_fail hcall hquiet
    · next response _ =>
      -- The channel is called at once, where the upgrade has left the link.
      let made : Channel σ ε := Channel.connect (r.link.record (.upgraded response)) session
        (u.registry.instantiate response.extensions)
      let b : Channel σ ε :=
        { made with buffer := leftover.toArray, link := made.link.record .replaceHandler }
      have hfront : b.link.events = x.client.events
          ++ (List.replicate n .fill ++ [.upgraded response, .replaceHandler]) := by
        rw [← List.append_assoc, ← hfills]
        simp [b, made, Channel.connect, Link.events, Link.record]
      exact h.of_listens hprior hfront (by simp) (by simp)
        (Channel.listens_opened (c := b) rfl hl'.closed) (by rw [hcall]; rfl) (by rw [hcall]; rfl)

/-- Behind the request, only word of octets and an abortion mean anything to the upgrade. -/
theorem Keeps.call_reading (h : x.Keeps) {u : Handshake.Upgrade σ ε} {session : σ}
    (hh : x.client.handler = some (.upgrade u)) (hs : u.state = .reading session)
    (hl : x.client.link.Unconnected) (hr : x.reactor.Attends true) {cb : Callback}
    (hadmits : x.reactor.admits (.call cb)) : (x.act (.call cb)).Keeps := by
  have hcall : x.client.call cb = follow (u.react x.client.toHost cb) := by simp only [call, hh]
  cases cb with
  | opened => exact absurd hadmits (by simp [Reactor.admits, hr.opened])
  | readable => exact h.call_readable_of_reading hh hs hl hr
  | written failure =>
    have hnow : x.client.call (.written failure)
        = { x.client with handler := some (.upgrade u) } := by
      rw [hcall]
      simp [Handshake.Upgrade.react, Handshake.Upgrade.written, hs, follow]
    exact h.of_events_eq hnow rfl (.reading rfl hs hl (hr.written failure))
  | aborted => exact h.call_aborted hh (by simp [hs])

/-- A channel reads, or it closes. -/
theorem Keeps.call_channel (h : x.Keeps) {k : Connection σ}
    (hh : x.client.handler = some (.connection k)) (hk : k.closed = false)
    (hl : x.client.link.closed = false) (hr : x.reactor.Attends true) {cb : Callback}
    (hadmits : x.reactor.admits (.call cb)) : (x.act (.call cb)).Keeps := by
  let b : Channel σ ε := { k with link := x.client.link }
  have hcall : x.client.call cb = x.client.callConnection k cb := call_of_connection hh cb
  have hclosing (hclosed : (b.react x.client.input cb).1 = b.shutdown) :
      (x.act (.call cb)).Keeps := by
    refine h.of_retired ?_ ?_
    · rw [hcall]
      show (b.react x.client.input cb).1.closed = true
      rw [hclosed]
      rfl
    · rw [hcall]
      show b.link.Quiet (b.react x.client.input cb).1.link
      rw [hclosed]
      exact Channel.quiet_shutdown b
  cases cb with
  | opened => exact absurd hadmits (by simp [Reactor.admits, hr.opened])
  | readable =>
    have hprior : (x.reactor.prior (.call .readable)).Attends false :=
      ⟨rfl, hr.opened, hr.closed, hr.requestWritten⟩
    have hfront : b.link.events = x.client.events ++ [] := (List.append_nil _).symm
    have hlistens : b.Listens (b.readable x.client.input).1 :=
      Channel.listens_readable (Channel.Settles.refl hk hl) (.refl _) _
    exact h.of_listens hprior hfront List.not_mem_nil List.not_mem_nil hlistens
      (by rw [hcall]; rfl) (by rw [hcall]; rfl)
  | written failure =>
    rcases failure with - | message
    · exact h.of_events_eq hcall rfl (.channel rfl hk hl (hr.written none))
    · exact hclosing rfl
  | aborted =>
    refine hclosing ?_
    show b.aborted = b.shutdown
    rw [Channel.aborted, if_neg (by simp [b, hk])]

/-! ### Runs -/

theorem Keeps.act (h : x.Keeps) {a : Action} (hadmits : x.reactor.admits a) :
    (x.act a).Keeps := by
  by_cases ha : ∃ cb, a = .call cb
  · obtain ⟨cb, rfl⟩ := ha
    cases h.stage with
    | connecting hh hs hu hl hr hdue => exact h.call_connecting hh hs hu hl hr hdue hadmits
    | sending hh hs hl hr hopened hdue => exact h.call_sending hh hs hl hr hopened hdue hadmits
    | reading hh hs hl hr => exact h.call_reading hh hs hl hr hadmits
    | channel hh hk hl hr => exact h.call_channel hh hk hl hr hadmits
    | retired hretired =>
      obtain ⟨hretired', hquiet⟩ := hretired.call cb
      exact h.of_retired hretired' hquiet
  · exact h.aside (not_exists.1 ha)

theorem Keeps.run (h : x.Keeps) {actions : List Action} (hadmits : x.admits actions) :
    (x.run actions).Keeps := by
  induction actions generalizing x with
  | nil => exact h
  | cons a actions ih =>
    obtain ⟨ha, hactions⟩ := (Bool.and_eq_true ..).mp hadmits
    exact ih (h.act ha) hactions

omit [Session σ] [Extension ε] in
theorem keeps_start (u : Handshake.Upgrade σ ε) (session : σ) (host : Host ε)
    (keys : Nat → UInt32) : (start u session host keys).Keeps :=
  ⟨rfl, rfl, .connecting rfl rfl rfl ⟨rfl, rfl, rfl⟩ ⟨rfl, rfl, rfl⟩ rfl⟩

omit [Session σ] [Extension ε] in
/-- The stages in which the handler waits are those in which the reactor is armed. -/
theorem Stage.armed (h : x.Stage) (hwaits : x.client.waits) : x.reactor.armed := by
  cases h with
  | connecting hh hs | sending hh hs =>
    simp only [waits, hh, hs] at hwaits
    cases hwaits
  | reading _ _ _ hr | channel _ _ _ hr => exact hr.armed_eq
  | retired hretired => exact absurd hwaits (by simp [hretired.waits_eq])

/-- **Who waits for octets has asked for them, and nobody asks twice.**  A handshake begins, and
then anything befalls the client that the reactor may let happen: it tells the handler once that
it is the handler, gives word only when it was asked and not since, and reports the end of no
write that was not started; all else is free.

Then the reactor was never asked while it was to give word anyway, nor when the endpoint was
closed, nor before it had reported that the request is written.  And whenever the handler waits
for octets, be it the upgrade or the channel that it was replaced with, the reactor is to give
word. -/
theorem armed_while_waiting (u : Handshake.Upgrade σ ε) (session : σ) (host : Host ε)
    (keys : Nat → UInt32) (actions : List Action)
    (hadmits : (start u session host keys).admits actions) :
    let final := (start u session host keys).run actions
    final.reactor.breaches = [] ∧ (final.client.waits → final.reactor.armed) := by
  intro final
  have hfinal : final.Keeps := (keeps_start u session host keys).run hadmits
  exact ⟨hfinal.breaches, hfinal.stage.armed⟩

/-- The response comes in two parts, with a ping behind it, and then another ping comes in two
parts.  The reactor is asked when the request is written, and behind each of these parts. -/
theorem armed_while_waiting_of_pings :
    let request : Handshake.Request :=
      { host := "h", resource := "/", key := "dGhlIHNhbXBsZSBub25jZQ==" }
    let u : Handshake.Upgrade Script Extension.Identity :=
      { request, registry := {}, state := .done }
    let front := Text.Utf8.encode ("HTTP/1.1 101 \r\nUpgrade: websocket\r\n"
      ++ "Connection: upgrade\r\nSec-WebSocket-Accept: s3pPLMBiTxaQ9kYGzzhZRbK+xOo=\r").toList
    let actions : List Action :=
      [.call .opened, .runTasks, .call (.written none), .arrive [.data front], .call .readable,
        .arrive [.data [0x0a, 0x0d, 0x0a, 0x89, 1, 7]], .call .readable, .call (.written none),
        .arrive [.data [0x89], .empty, .data [0]], .call .readable, .call .readable]
    let begun := start u {} { link := { keys := fun _ => 0 } } fun _ => 0
    let final := begun.run actions
    begun.admits actions ∧ final.client.waits ∧ final.client.events.count .fillInterested = 5
      ∧ final.reactor.breaches = [] ∧ final.reactor.armed := by
  intro request u front actions begun final
  obtain ⟨hadmits, hwaits, hcount⟩ :
      begun.admits actions ∧ final.client.waits
        ∧ final.client.events.count .fillInterested = 5 := by
    decide +kernel
  obtain ⟨hnone, harmed⟩ :=
    armed_while_waiting u {} { link := { keys := fun _ => 0 } } (fun _ => 0) actions hadmits
  exact ⟨hadmits, hwaits, hcount, hnone, harmed hwaits⟩

end Driven

end Client

end WebSocket
