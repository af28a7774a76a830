/-
WebSocket/Proofs/Handshake/RequestTask.lean

The request of a handshake, which a task writes some time after the endpoint has opened.

Design.  What was written and what still waits are taken together (`Course.due`).  While
there is no channel, running the tasks only turns the one into the other
(`due_step_env`), and the upgrade adds its request, once, when it has not begun yet
(`Upgrade.Turn.Asks`, `Course.Asked`).

The endpoint is closed by a failure, and this is the last that the failing call does.  So a
run in which the upgrade closes the endpoint falls in two at the end of that call
(`exists_closing`).  Behind it nothing is due that was not due before (`Over.step`), and
what is still written is the request that waited (`written_behind_close`).
-/
import WebSocket.Extension.Marker
import WebSocket.Proofs.Channel.SendOrder
import WebSocket.Proofs.Handshake.Outcome

namespace WebSocket

/-! ### What a link has written -/

namespace Link

variable {ε : Type}

/-- What was written, in order. -/
def written (l : Link ε) : List Bytes :=
  l.events.filterMap Event.written?

theorem written_record (l : Link ε) {e : Event} (he : e.written? = none) :
    (l.record e).written = l.written := by
  simp [written, he]

theorem written_record_write (l : Link ε) (octets : Bytes) :
    (l.record (.write octets)).written = l.written ++ [octets] := by
  simp [written, Event.written?]

variable [Extension ε]

theorem Unconnected.written_submitNested {l : Link ε} (h : l.Unconnected) (o : Outgoing) :
    (l.submitNested o).written = l.written := by
  obtain ⟨e, he⟩ := h.submit_eq o
  unfold submitNested
  rw [he]
  exact l.written_record rfl

theorem Unconnected.written_foldl_submitNested {l : Link ε} (h : l.Unconnected)
    (sends : List Outgoing) : (sends.foldl submitNested l).written = l.written := by
  induction sends generalizing l with
  | nil => rfl
  | cons o sends ih =>
    exact (ih (h.passes_submitNested o).unconnected).trans (h.written_submitNested o)

theorem Unconnected.written_transmit {l : Link ε} (h : l.Unconnected) (octets : Bytes) :
    (l.transmit octets).written = l.written ++ [octets] := by
  unfold transmit
  split
  · exact l.written_record_write octets
  · next sends onWrite _ =>
    have hnow : ({ l with onWrite } : Link ε).Unconnected := ⟨h.chain, h.closed, h.closeSent⟩
    rw [written_record_write, hnow.written_foldl_submitNested]
    rfl

theorem Unconnected.written_foldl_transmit {l : Link ε} (h : l.Unconnected)
    (tasks : List Bytes) : (tasks.foldl transmit l).written = l.written ++ tasks := by
  induction tasks generalizing l with
  | nil => exact (List.append_nil _).symm
  | cons octets tasks ih =>
    rw [List.foldl_cons, ih (h.passes_transmit octets).unconnected, h.written_transmit,
      List.append_assoc]
    rfl

end Link

namespace Handshake

variable {σ ε : Type}

/-! ### One call of an upgrade -/

namespace Upgrade

/-- Whether the endpoint has not opened yet. -/
def State.isConnecting : State σ → Bool
  | connecting _ => true
  | sending _ | reading _ | done => false

/-- What a call of an upgrade does about the request.  It writes nothing itself.  At most it
gives the executor the task to write, and then it has left the first state for good. -/
structure Turn.Asks (u : Upgrade σ ε) (host : Host ε) (t : Turn σ ε) : Prop where
  request : t.upgrade.request = u.request
  written : t.host.link.written = host.link.written
  tasks : (t.host.tasks = host.tasks
      ∧ (t.upgrade.state.isConnecting → u.state.isConnecting))
    ∨ (t.host.tasks = host.tasks ++ [u.request.encode]
      ∧ u.state.isConnecting ∧ t.upgrade.state.isConnecting = false)

theorem asks_unchanged (u : Upgrade σ ε) (host : Host ε) :
    Turn.Asks u host { upgrade := u, host } :=
  ⟨rfl, rfl, .inl ⟨rfl, id⟩⟩

theorem asks_become {u : Upgrade σ ε} {host host' : Host ε} {state : State σ}
    (hs : state.isConnecting = false) (hw : host'.link.written = host.link.written)
    (ht : host'.tasks = host.tasks) : Turn.Asks u host (u.become state host') :=
  ⟨rfl, hw, .inl ⟨ht, fun h => absurd h (by simp [become, hs])⟩⟩

theorem asks_fail {u : Upgrade σ ε} {host host' : Host ε} {cause : Error}
    (hw : host'.link.written = host.link.written) (ht : host'.tasks = host.tasks) :
    Turn.Asks u host (u.fail host' cause) := by
  unfold fail
  refine asks_become rfl ?_ ?_
  · rw [← hw]
    split <;> simp [Host.record, Link.written, Event.written?]
  · split <;> exact ht

theorem asks_opened (u : Upgrade σ ε) (host : Host ε) : Turn.Asks u host (u.opened host) := by
  unfold opened
  split
  · next session hs =>
    split
    · exact ⟨rfl, rfl, .inr ⟨rfl, by rw [hs]; rfl, rfl⟩⟩
    · exact asks_fail rfl rfl
  · exact asks_unchanged u host

theorem asks_written (u : Upgrade σ ε) (host : Host ε) (failure : Option String) :
    Turn.Asks u host (u.written host failure) := by
  unfold written
  split
  · split
    · exact asks_become rfl (host.link.written_record rfl) rfl
    · exact asks_fail rfl rfl
  · exact asks_unchanged u host

theorem asks_aborted (u : Upgrade σ ε) (host : Host ε) : Turn.Asks u host (u.aborted host) := by
  unfold aborted
  split
  · exact asks_unchanged u host
  · exact asks_fail rfl rfl

theorem written_read (reader : HeadReader) (link : Link ε) (input : List Inbound) :
    (read reader link input).link.written = link.written := by
  obtain ⟨n, hread⟩ := exists_read_link_eq reader link input
  rw [hread]
  simp [Link.written, Link.events, Event.written?, List.filterMap_replicate]

variable [Extension ε] [Session σ]

theorem asks_handOver {u : Upgrade σ ε} {host host' : Host ε} {session : σ}
    {response : Response} {leftover : Bytes} (hw : host'.link.written = host.link.written)
    (ht : host'.tasks = host.tasks) :
    Turn.Asks u host (u.handOver host' session response leftover) := by
  refine ⟨rfl, ?_, .inl ⟨ht, fun h => absurd h (by simp [handOver, State.isConnecting])⟩⟩
  rw [← hw]
  exact (Link.written_record _ rfl).trans (host'.link.written_record rfl)

theorem asks_conclude (u : Upgrade σ ε) (host : Host ε) (session : σ) {r : Reading ε}
    (hr : r.link.written = host.link.written) : Turn.Asks u host (u.conclude host session r) := by
  -- How much of the response was read makes no difference.
  have hreader : Turn.Asks { u with reader := r.reader } host (u.conclude host session r) := by
    unfold conclude
    dsimp only
    split
    · exact asks_fail hr rfl
    · exact asks_become rfl ((Link.written_record _ rfl).trans hr) rfl
    · split
      · exact asks_fail hr rfl
      · exact asks_handOver hr rfl
  exact ⟨hreader.request, hreader.written, hreader.tasks⟩

theorem asks_readable (u : Upgrade σ ε) (host : Host ε) :
    Turn.Asks u host (u.readable host) := by
  unfold readable
  split
  · exact asks_conclude u host _ (written_read u.reader host.link host.input)
  · exact asks_unchanged u host

theorem asks_react (u : Upgrade σ ε) (host : Host ε) (cb : Callback) :
    Turn.Asks u host (u.react host cb) := by
  cases cb with
  | opened => exact u.asks_opened host
  | readable => exact u.asks_readable host
  | written failure => exact u.asks_written host failure
  | aborted => exact u.asks_aborted host

end Upgrade

/-! ### The request in the course of a handshake -/

namespace Course

/-- What was written and what waits to be written, in order. -/
def due (s : Course σ ε) : List Bytes :=
  s.host.link.written ++ s.host.tasks

/-- Before the endpoint has opened nothing is due, and later the request at most. -/
structure Asked (r : Request) (s : Course σ ε) : Prop where
  request : s.upgrade.request = r
  connecting : s.upgrade.state.isConnecting → s.due = []
  once : s.due = [] ∨ s.due = [r.encode]

theorem Asked.of_due_eq {r : Request} {s s' : Course σ ε} (h : s.Asked r)
    (hr : s'.upgrade.request = s.upgrade.request)
    (hs : s'.upgrade.state.isConnecting → s.upgrade.state.isConnecting) (hd : s'.due = s.due) :
    s'.Asked r :=
  ⟨hr.trans h.request, fun hc => hd.trans (h.connecting (hs hc)), by rw [hd]; exact h.once⟩

theorem Asked.advance {r : Request} {s : Course σ ε} {turn : Upgrade.Turn σ ε}
    (h : s.Asked r) (hturn : turn.Asks s.upgrade s.host) : (s.advance turn).Asked r := by
  obtain ⟨hr, hw, ⟨ht, hs⟩ | ⟨ht, hu, hs⟩⟩ := hturn
  · exact h.of_due_eq hr hs (by simp only [due, Course.advance, hw, ht])
  · -- The task is given away once, as this is the first that becomes due.
    have hdue : (s.advance turn).due = [r.encode] := by
      have hbefore : s.host.link.written ++ s.host.tasks = [] := h.connecting hu
      simp only [due, Course.advance, hw, ht, ← List.append_assoc, hbefore, h.request]
      rfl
    exact ⟨hr.trans h.request, fun hc => absurd hc (by simp [Course.advance, hs]), .inr hdue⟩

variable [Extension ε] [Session σ]

theorem due_step_env {s : Course σ ε} (hl : s.host.link.Unconnected) (hk : s.successor = none)
    {x : Step} (hx : ∀ cb, x ≠ .call cb) : (s.step x).due = s.due := by
  cases x with
  | call cb => exact absurd rfl (hx cb)
  | callSuccessor cb => rw [show s.step (.callSuccessor cb) = s by simp [step, hk]]
  | arrive pieces => rfl
  | executor takes => rfl
  | runTasks =>
    show (s.host.tasks.foldl Link.transmit s.host.link).written ++ [] = s.due
    rw [hl.written_foldl_transmit, List.append_nil]
    rfl
  | submit o =>
    obtain ⟨e, he⟩ := hl.submit_eq o
    simp only [step, due, he]
  | onWrite sends => rfl

/-- The upgrade has failed.  Since it was `c`, there was no milestone, and nothing has become
due. -/
structure Over (c s : Course σ ε) : Prop where
  state : s.upgrade.state = .done
  successor : s.successor = none
  passes : c.host.link.Passes s.host.link
  due : s.due = c.due

theorem Over.step {c s : Course σ ε} (h : c.Over s) (x : Step) : c.Over (s.step x) := by
  by_cases hx : ∃ cb, x = .call cb
  · obtain ⟨cb, rfl⟩ := hx
    rw [step_call_of_done h.state]
    exact h
  · have hx := not_exists.1 hx
    have hl := h.passes.unconnected
    have haside := aside_step hl h.successor hx
    exact ⟨by rw [haside.upgrade, h.state], by rw [haside.successor, h.successor],
      h.passes.trans haside.passes, (due_step_env hl h.successor hx).trans h.due⟩

theorem Asked.step_env {r : Request} {s : Course σ ε} (h : s.Asked r)
    (hl : s.host.link.Unconnected) (hk : s.successor = none) {x : Step}
    (hx : ∀ cb, x ≠ .call cb) : (s.step x).Asked r := by
  have hu := (aside_step hl hk hx).upgrade
  exact h.of_due_eq (by rw [hu]) (by rw [hu]; exact id) (due_step_env hl hk hx)

/-! ### Closing the endpoint -/

omit [Extension ε] [Session σ] in
/-- To close the endpoint is a milestone. -/
theorem close_not_mem {E ms : List Event} (hE : E.filter Event.isMilestone = ms)
    (hms : .close ∉ ms) : .close ∉ E := by
  intro hmem
  rw [← hE] at hms
  exact hms (List.mem_filter.2 ⟨hmem, rfl⟩)

omit [Extension ε] [Session σ] in
theorem exists_teardown_eq (k : Kind) :
    ∃ front, teardown k = front ++ [.close] ∧ .close ∉ front := by
  cases k with
  | transport | protocol => exact ⟨[], rfl, List.not_mem_nil⟩
  | validation | construction => exact ⟨[.shutdownOutput], rfl, by simp⟩

omit [Extension ε] [Session σ] in
/-- A call that fails closes the endpoint in the end, and not before. -/
theorem Alone.exists_append_close {s : Course σ ε} (h : s.Alone []) {turn : Upgrade.Turn σ ε}
    {e : Error} {l : Link ε} (hl : s.host.link.Passes l)
    (he : turn.host.link.events = l.events ++ .failed e :: teardown e.kind) :
    ∃ front, (s.advance turn).events = front ++ [.close] ∧ .close ∉ front := by
  obtain ⟨E, hE, hm⟩ := hl.events
  obtain ⟨front, hfront, hnot⟩ := exists_teardown_eq e.kind
  have hbefore : .close ∉ l.events := by
    have hnone : l.events.filter Event.isMilestone = [] := by
      rw [hE, List.filter_append, hm, List.append_nil]
      exact h.milestones
    exact close_not_mem hnone List.not_mem_nil
  refine ⟨l.events ++ .failed e :: front, ?_, by simp [hbefore, hnot]⟩
  show turn.host.link.events = _
  rw [he, hfront, List.append_assoc]
  rfl

/-- The upgrade has just closed the endpoint, which nobody had done before. -/
structure JustClosed (r : Request) (s : Course σ ε) : Prop where
  failed : s.Over s
  asked : s.Asked r
  events : ∃ front, s.events = front ++ [.close] ∧ .close ∉ front

/-- Where the upgrade closes the endpoint in a run, the run falls in two behind that. -/
theorem exists_closing {r : Request} {s : Course σ ε} (h : s.Alone [])
    (hs : s.upgrade.state ≠ .done) (hr : s.Asked r) {steps : List Step}
    (hclose : .close ∈ (s.run steps).calls) :
    ∃ early later, steps = early ++ later ∧ (s.run early).JustClosed r := by
  induction steps generalizing s with
  | nil => exact absurd hclose (close_not_mem h.calls List.not_mem_nil)
  | cons x steps ih =>
    -- Where the first step does not close the endpoint, the closing is that of the others.
    have hlater (h' : (s.step x).Alone []) (hs' : (s.step x).upgrade.state ≠ .done)
        (hr' : (s.step x).Asked r) :
        ∃ early later, x :: steps = early ++ later ∧ (s.run early).JustClosed r := by
      obtain ⟨early, later, rfl, hclosed⟩ := ih h' hs' hr' hclose
      exact ⟨x :: early, later, rfl, hclosed⟩
    by_cases hx : ∃ cb, x = .call cb
    · obtain ⟨cb, rfl⟩ := hx
      have hr' : (s.step (.call cb)).Asked r := hr.advance (s.upgrade.asks_react s.host cb)
      cases Upgrade.exit_react hs h.unconnected cb with
      | undecided hs' hk hl => exact hlater (h.undecided_advance hk hl) hs' hr'
      | failed e l hl hs' hk hu he =>
        have h' := h.failed_advance hl hk hu he
        exact ⟨[.call cb], steps, rfl, ⟨hs', h'.successor, hu.passes_refl, rfl⟩, hr',
          h.exists_append_close hl he⟩
      | upgraded response l hl hs' he =>
        -- Behind a success the upgrade does nothing, and it is the channel that closes.
        obtain ⟨h', -⟩ := run_of_step (P := fun s => s.HandedOver response
          ∧ s.upgrade.state = .done) (fun s x h => h.1.step_of_done h.2 x)
          ⟨h.handedOver_advance hl he, hs'⟩ steps
        exact absurd hclose (close_not_mem h'.calls (by simp))
    · have hx := not_exists.1 hx
      obtain ⟨h', hu⟩ := h.step_env hx
      exact hlater h' (by rw [hu]; exact hs) (hr.step_env h.unconnected h.successor hx)

/-- **Behind the close of a failed handshake, nothing is written but a request that still
waits.**  Whatever is called, arrives, is sent and is taken, refused or run by the executor, in
whatever order: where the upgrade has closed the endpoint, the run falls in two at this place.
The endpoint is closed once.  What is written behind that, followed by what waits in the end,
is what waited then, and that is nothing, or it is the request, which was not written before.

So if the executor had run the task before, or there never was one, nothing is written behind
the close. -/
theorem written_behind_close (u : Upgrade σ ε) (session : σ) (host : Host ε)
    (keys : Nat → UInt32) (steps : List Step)
    (hclose : .close ∈ ((start u session { host with tasks := [] } keys).run steps).calls) :
    let begun := start u session { host with tasks := [] } keys
    let final := begun.run steps
    ∃ early later front back, let closed := begun.run early
      steps = early ++ later
        ∧ closed.events = front ++ [.close] ∧ .close ∉ front
        ∧ final.events = closed.events ++ back ∧ .close ∉ back
        ∧ back.filterMap Event.written? ++ final.host.tasks = closed.host.tasks
        ∧ (closed.host.tasks = []
          ∨ closed.host.tasks = [u.request.encode] ∧ front.filterMap Event.written? = []) := by
  intro begun final
  obtain ⟨early, later, rfl, hjust⟩ := exists_closing (r := u.request) (s := begun)
    ⟨⟨rfl, rfl, rfl⟩, rfl, rfl, rfl⟩ nofun ⟨rfl, fun _ => rfl, .inl rfl⟩ hclose
  obtain ⟨front, hfront, hnot⟩ := hjust.events
  have hsplit : final = (begun.run early).run later := List.foldl_append ..
  obtain ⟨-, -, hpasses, hdue⟩ := run_of_step (fun _ x h => h.step x) hjust.failed later
  rw [← hsplit] at hpasses hdue
  obtain ⟨back, hback, hm⟩ := hpasses.events
  -- What is due has not changed since the endpoint was closed, so what was written meanwhile is
  -- what waits no longer.
  refine ⟨early, later, front, back, rfl, hfront, hnot, hback,
    close_not_mem hm List.not_mem_nil, ?_, ?_⟩
  · have hwritten : final.host.link.written
        = (begun.run early).host.link.written ++ back.filterMap Event.written? := by
      simp only [Link.written, hback, List.filterMap_append]
    simpa [due, hwritten, List.append_assoc] using hdue
  · have hclosed : (begun.run early).host.link.written = front.filterMap Event.written? := by
      show (begun.run early).events.filterMap Event.written? = _
      simp [hfront, Event.written?]
    have honce := hjust.asked.once
    rw [due, hclosed] at honce
    rcases honce with hnone | hone
    · exact .inl (List.append_eq_nil_iff.1 hnone).2
    · rcases List.append_eq_singleton_iff.1 hone with ⟨hw, ht⟩ | ⟨-, ht⟩
      · exact .inr ⟨ht, hw⟩
      · exact .inl ht

/-- **A request that waits when the handshake is aborted is written to the closed endpoint.**
The endpoint opens, the upgrade is aborted before the executor has run the task, and then the
executor runs it. -/
theorem request_written_behind_close :
    let request : Request := { host := "a.b", resource := "/", key := "AAAAAAAAAAAAAAAAAAAAAA==" }
    let upgrade : Upgrade Script Extension.Marker := { request, registry := {}, state := .done }
    let begun := start upgrade {} { link := { keys := fun _ => 0 } } fun _ => 0
    let final := begun.run [.call .opened, .call .aborted, .runTasks]
    .close ∈ final.calls ∧ final.events = [.failed .aborted, .close, .write request.encode] := by
  decide +kernel

/-- A failed write is reported before the executor runs the task.  The application sends, and
the upgrade is called again. -/
theorem written_behind_close_of_failed_write :
    let request : Request := { host := "a.b", resource := "/", key := "AAAAAAAAAAAAAAAAAAAAAA==" }
    let upgrade : Upgrade Script Extension.Marker := { request, registry := {}, state := .done }
    let begun := start upgrade {} { link := { keys := fun _ => 0 } } fun _ => 0
    let steps : List Step := [.call .opened, .arrive [.ended], .call (.written (some "reset")),
      .submit (.text "a"), .runTasks, .call .aborted, .call .readable]
    let final := begun.run steps
    .close ∈ final.calls ∧ final.host.tasks = []
      ∧ ∃ front back : List Event, final.events = front ++ .close :: back
        ∧ .close ∉ front ∧ .close ∉ back
        ∧ (back.filterMap Event.written? = []
          ∨ back.filterMap Event.written? = [request.encode]
            ∧ front.filterMap Event.written? = []) := by
  intro request upgrade begun steps final
  have hclose : .close ∈ final.calls := by decide +kernel
  have hnone : final.host.tasks = [] := by decide +kernel
  obtain ⟨early, later, front, back, -, hfront, hnot, hback, hnot', hdue, hwaits⟩ :=
    written_behind_close upgrade {} { link := { keys := fun _ => 0 } } (fun _ => 0) steps hclose
  have hall : final.events = front ++ .close :: back := by
    rw [hback, hfront, List.append_assoc]
    rfl
  rw [← hdue, hnone, List.append_nil] at hwaits
  exact ⟨hclose, hnone, front, back, hall, hnot, hnot', hwaits⟩

end Course

end Handshake

end WebSocket
