/-
WebSocket/Proofs/Client/Delivery.lean

What the application is given in a run.

The handler of a client is a channel, or was one until it was dropped (`Runs`).  Each action
takes this channel further on its course, and what it reads of the octets that have arrived
joins the stream (`Runs.act`); so does a run (`Runs.run`).  The main statement puts together
what `Meets` says of the deliveries and what `HasRead` says of the frames.
-/
import WebSocket.Extension.Marker
import WebSocket.Proofs.Channel.Course
import WebSocket.Proofs.Client.Chunking

namespace WebSocket.Client

variable {σ ε : Type} [Extension ε] [Session σ]

/-- The encounters of the handler, if it is a channel, when an action befalls the client. -/
def encountersBy (c : Client σ ε) : Action → List (Encounter σ ε)
  | .call cb =>
    match c.handler with
    | some (.connection k) => Channel.encountersOn { k with link := c.link } c.input cb
    | some (.upgrade _) | none => []
  | _ => []

/-- The encounters of the handler in a run. -/
def encounters (c : Client σ ε) : List Action → List (Encounter σ ε)
  | [] => []
  | a :: actions => c.encountersBy a ++ (c.act a).1.encounters actions

/-- The handler of the client is this channel, or it was until it was dropped.  No task
waits. -/
structure Runs (c : Client σ ε) (k : Channel σ ε) : Prop where
  link : c.link = k.link
  handler : c.handler = some (.connection k.toConnection) ∨ c.handler = none
  tasks : c.tasks = []

omit [Extension ε] [Session σ] in
theorem runs_ofChannel (k : Channel σ ε) : (ofChannel k).Runs k :=
  ⟨rfl, .inl rfl, rfl⟩

/-- What an action makes of the channel that is the handler, or was it until it was dropped. -/
def channelBy (c : Client σ ε) (k : Channel σ ε) : Action → Channel σ ε
  | .call cb => if c.handler.isSome then (k.react c.input cb).1 else k
  | .submit o => { k with link := (k.link.submit o).1 }
  | .onNextWrite sends => { k with link := { k.link with onWrite := [sends] } }
  | .arrive _ | .runTasks | .dropHandler => k

theorem Runs.call_eq {c : Client σ ε} {k : Channel σ ε} (h : c.Runs k)
    (hh : c.handler = some (.connection k.toConnection)) (cb : Callback) :
    c.call cb = { c with
      link := (k.react c.input cb).1.link
      input := (k.react c.input cb).2
      handler := some (.connection (k.react c.input cb).1.toConnection) } := by
  have hk : ({ k.toConnection with link := c.link } : Channel σ ε) = k := by rw [h.link]
  rw [call_of_connection hh, callConnection, hk]

theorem Runs.channelBy {c : Client σ ε} {k : Channel σ ε} (h : c.Runs k) (a : Action) :
    (c.act a).1.Runs (c.channelBy k a) := by
  obtain ⟨hlink, hhandler, htasks⟩ := id h
  cases a with
  | arrive pieces => exact ⟨hlink, hhandler, htasks⟩
  | call cb =>
    show (c.call cb).Runs (if c.handler.isSome then (k.react c.input cb).1 else k)
    rcases hhandler with hh | hh
    · rw [h.call_eq hh, hh]
      exact ⟨rfl, .inl rfl, htasks⟩
    · rw [call_of_none hh, hh]
      exact h
  | submit o =>
    refine ⟨?_, hhandler, htasks⟩
    show (c.link.submit o).1 = (k.link.submit o).1
    rw [hlink]
  | onNextWrite sends =>
    refine ⟨?_, hhandler, htasks⟩
    show { c.link with onWrite := [sends] } = { k.link with onWrite := [sends] }
    rw [hlink]
  | runTasks =>
    refine ⟨?_, hhandler, rfl⟩
    show c.tasks.foldl Link.transmit c.link = k.link
    rw [htasks]
    exact hlink
  | dropHandler =>
    have hdrop : (c.act .dropHandler).1 = { c with handler := none } := by
      rcases hhandler with hh | hh <;> simp only [Client.act, dropHandler, hh]
    rw [hdrop]
    exact ⟨hlink, .inr rfl, htasks⟩

/-- A call of the endpoint is one of the channel, with its encounters. -/
theorem Runs.channelBy_call {c : Client σ ε} {k : Channel σ ε} (h : c.Runs k)
    (hh : c.handler = some (.connection k.toConnection)) (cb : Callback) :
    c.channelBy k (.call cb) = (k.react c.input cb).1
      ∧ c.encountersBy (.call cb) = k.encountersOn c.input cb := by
  constructor
  · rw [Client.channelBy, hh, Option.isSome_some, if_pos rfl]
  · simp only [encountersBy, hh, h.link]

/-- Each action takes the channel further. -/
theorem Runs.act {c : Client σ ε} {k : Channel σ ε} (h : c.Runs k) (a : Action) :
    ∃ k' taken, (c.act a).1.Runs k' ∧ k.Advances taken (c.encountersBy a) k'
      ∧ (c.input ++ a.arrived).flatMap Inbound.octets
        = taken ++ (c.act a).1.input.flatMap Inbound.octets := by
  suffices hall : ∃ taken, k.Advances taken (c.encountersBy a) (c.channelBy k a)
      ∧ (c.input ++ a.arrived).flatMap Inbound.octets
        = taken ++ (c.act a).1.input.flatMap Inbound.octets by
    obtain ⟨taken, hadvances, htaken⟩ := hall
    exact ⟨_, taken, h.channelBy a, hadvances, htaken⟩
  have hstay : (c.input ++ []).flatMap Inbound.octets
      = [] ++ c.input.flatMap Inbound.octets := by rw [List.append_nil, List.nil_append]
  cases a with
  | arrive pieces => exact ⟨[], .refl k, rfl⟩
  | call cb =>
    rcases h.handler with hh | hh
    · obtain ⟨taken, htaken, hadvances⟩ := Channel.advances_react k c.input cb
      obtain ⟨hby, hmet⟩ := h.channelBy_call hh cb
      rw [hmet, hby]
      refine ⟨taken, hadvances, ?_⟩
      show (c.input ++ []).flatMap Inbound.octets = taken ++ (c.call cb).input.flatMap Inbound.octets
      rw [h.call_eq hh, List.append_nil]
      exact htaken
    · have hmet : c.encountersBy (.call cb) = [] := by simp only [encountersBy, hh]
      have hby : c.channelBy k (.call cb) = k := by simp [Client.channelBy, hh]
      have hcall : (c.act (.call cb)).1 = c := call_of_none hh cb
      rw [hmet, hby, hcall]
      exact ⟨[], .refl k, hstay⟩
  | submit o => exact ⟨[], .of_moves (.submit o) rfl rfl, hstay⟩
  | onNextWrite sends => exact ⟨[], .of_moves (.onWrite [sends]) rfl rfl, hstay⟩
  | runTasks => exact ⟨[], .refl k, hstay⟩
  | dropHandler =>
    have hinput : (c.act .dropHandler).1.input = c.input := by
      rcases h.handler with hh | hh <;> simp only [Client.act, dropHandler, hh]
    rw [hinput]
    exact ⟨[], .refl k, hstay⟩

/-- So does a run. -/
theorem Runs.run {c : Client σ ε} {k : Channel σ ε} (h : c.Runs k) (actions : List Action) :
    ∃ k' taken, (c.run actions).Runs k' ∧ k.Advances taken (c.encounters actions) k'
      ∧ (c.input ++ actions.flatMap Action.arrived).flatMap Inbound.octets
        = taken ++ (c.run actions).input.flatMap Inbound.octets := by
  induction actions generalizing c k with
  | nil => exact ⟨k, [], h, .refl k, by simp [Client.run]⟩
  | cons a actions ih =>
    obtain ⟨k₁, taken₁, hruns₁, hadvances₁, htaken₁⟩ := h.act a
    obtain ⟨k', taken, hruns, hadvances, htaken⟩ := ih hruns₁
    refine ⟨k', taken₁ ++ taken, hruns, hadvances₁.trans hadvances, ?_⟩
    show _ = taken₁ ++ taken ++ ((c.act a).1.run actions).input.flatMap Inbound.octets
    rw [List.append_assoc, ← htaken, List.flatMap_cons, ← List.append_assoc, List.flatMap_append,
      htaken₁, List.flatMap_append, List.append_assoc]

/-- **Frames are delivered in order, each once, up to the last one.**  The handler of a client
is a channel that is called when it is put in place, and then anything befalls the client.
The `stream` that it reads is what is in its buffer and behind it what has arrived, up to what
still waits.  Its encounters are with the frames that the decoder makes of the stream, in
their order: with all of them, or up to the one that is the last by its fate.  What the
application is given is what comes out of the extensions at these encounters.

The last one is a frame that an extension or the application refuses, a ping that cannot be
answered, or a close frame that the application was given.  At the last frame, or at an error
of the decoder, the endpoint is closed. -/
theorem delivered_in_order (channel : Channel σ ε) (hopen : channel.closed = false)
    (actions : List Action) :
    let start := ofChannel channel
    let final := start.run (.call .opened :: actions)
    let met := start.encounters (.call .opened :: actions)
    ∃ (stream : Bytes) (E : List Event),
      channel.buffer.toList ++ (actions.flatMap Action.arrived).flatMap Inbound.octets
        = stream ++ final.input.flatMap Inbound.octets
      ∧ final.events = channel.link.events ++ E
      ∧ E.filterMap Event.delivered?
        = met.filterMap (fun m => (m.link.incoming m.frame).2.toOption)
      ∧ (met.map Encounter.frame = (channel.decoder.drain stream).frames
        ∨ (∃ m ∈ met, m.fate.isLast)
          ∧ met.map Encounter.frame <+: (channel.decoder.drain stream).frames)
      ∧ (∀ front m back, met = front ++ m :: back →
        m.fate.isLast ∨ (∃ g, m.fate.delivered? = some g ∧ g.opcode = .close) → back = [])
      ∧ ((channel.decoder.drain stream).error.isSome ∨ (∃ m ∈ met, m.fate.isLast) →
        .close ∈ E ∧ final.link.closed) := by
  intro start final met
  -- The first call reads the buffer, and the others what arrives.
  obtain ⟨k, taken, hruns, hadvances, htaken⟩ :=
    Runs.run (c := (start.act (.call .opened)).1) (k := channel.opened) ⟨rfl, .inl rfl, rfl⟩ actions
  have hread : Channel.HasRead channel.decoder (channel.buffer.toList ++ taken) met k :=
    hadvances.hasRead (Channel.hasRead_opened hopen)
  have hmeets : channel.Meets met k :=
    (Channel.advances_opened channel).meets.trans hadvances.meets
  obtain ⟨⟨E, hE, hgiven, hclose⟩, hlink⟩ := hmeets.logged hopen
  have hfinal : final.link = k.link := hruns.link
  refine ⟨channel.buffer.toList ++ taken, E, ?_, ?_, ?_, hread.frames, ?_, ?_⟩
  · rw [List.append_assoc]
    exact congrArg (channel.buffer.toList ++ ·) htaken
  · rw [← hE, ← hfinal]
    rfl
  · rw [hgiven]
    exact List.filterMap_congr fun m _ => m.delivered_fate
  · rintro front m back hmet hlast
    have hm : m.fate.isLast := by
      rcases hlast with hlast | ⟨g, hg, hgclose⟩
      · exact hlast
      · exact Encounter.isLast_of_close hg hgclose
    rw [hmet] at hmeets
    exact (hmeets.isLast hm).1
  · intro hend
    have hclosed : k.closed := by
      rcases hend with herror | ⟨m, hm, hlast⟩
      · by_contra hk
        rw [hread.waits (by simpa using hk)] at herror
        cases herror
      · obtain ⟨front, back, hmet⟩ := List.append_of_mem hm
        rw [hmet] at hmeets
        exact (hmeets.isLast hlast).2
    rw [hfinal]
    refine ⟨hclose.2 hclosed, ?_⟩
    rw [hlink, hclosed, Bool.or_true]

/-- There are two extensions, each of which leaves its mark.  A message comes with the answer
to the request, and a close frame arrives together with another message, which is not
delivered. -/
theorem delivered_in_order_of_close :
    let marker (mark : Bytes) : Extension.Marker := { label := "mark", mark }
    let channel : Channel Script Extension.Marker :=
      { Channel.connect { keys := fun _ => 0 } {} [marker [1], marker [2]] with
        buffer := #[0x81, 1, 97] }
    let actions : List Action := [.arrive [.data [0x88, 0, 0x81, 1, 98]], .call .readable]
    let start := ofChannel channel
    let final := start.run (.call .opened :: actions)
    channel.closed = false
      ∧ final.events.filterMap Event.delivered?
        = [.single .text [97, 2, 1], .single .close [2, 1]]
      ∧ (start.encounters (.call .opened :: actions)).map Encounter.frame
        = [.single .text [97], .single .close []]
      ∧ final.link.closed := by
  intro marker channel actions start final
  obtain ⟨hframes, hgiven, hlast⟩ :
      (start.encounters (.call .opened :: actions)).map Encounter.frame
          = [.single .text [97], .single .close []]
        ∧ (start.encounters (.call .opened :: actions)).filterMap
            (fun m => (m.link.incoming m.frame).2.toOption)
          = [.single .text [97, 2, 1], .single .close [2, 1]]
        ∧ ∃ m ∈ start.encounters (.call .opened :: actions), m.fate.isLast := by
    decide +kernel
  obtain ⟨stream, E, -, hE, hdelivered, -, -, hclosed⟩ :=
    delivered_in_order channel rfl actions
  refine ⟨rfl, ?_, hframes, (hclosed (.inr hlast)).2⟩
  rw [hE, ← hgiven, ← hdelivered]
  rfl

end WebSocket.Client
