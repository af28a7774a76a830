/-
WebSocket/Proofs/Client/Pongs.lean

Every ping gets its pong in a run.

The handler of a client is a channel that was just connected, and then anything befalls the
client.  Its course is divided at each encounter (`Meets.split`): what happened before, the
answer (`Meets.answered`), and what only adds to the log.  That no frame was refused until the
end means that none was refused until then, as the number of refusals only grows.
-/
import WebSocket.Proofs.Channel.Pongs
import WebSocket.Proofs.Client.Delivery

namespace WebSocket

/-! ### One encounter of many -/

/-- What `m` has done and what has happened before shows at each of the later encounters. -/
theorem Channel.Meets.events_back {σ ε : Type} [Extension ε] [Session σ] {c c' : Channel σ ε}
    {back : List (Encounter σ ε)} (h : c.Meets back c') {m : Encounter σ ε} (hm : m ∈ back) :
    ∃ Z : List Event, m.link.events = c.link.events ++ Z := by
  obtain ⟨before, behind, rfl⟩ := List.append_of_mem hm
  obtain ⟨k, f, hbefore, -, rfl, -⟩ := h.split
  obtain ⟨Z, hZ, -⟩ := hbefore.reaches.grows
  refine ⟨Z.reverse, ?_⟩
  show k.link.log.reverse = _
  rw [hZ, List.reverse_append]
  rfl

section

open Event

variable {σ ε : Type} [Extension ε] [Session σ] {c c' : Channel σ ε}
  {front back : List (Encounter σ ε)} {m : Encounter σ ε} {g : Frame} {E : List Event}

/-- What happens in a course is what happens until the application has dealt with one of the
frames, the answer to it, and what happens later.  If no frame is ever refused, then the answer
is as it should be. -/
theorem Channel.Meets.answered_within (h : c.Meets (front ++ m :: back) c') (hfresh : c.link.Fresh)
    (hc : c.closed = false) (hE : c'.link.events = c.link.events ++ E)
    (hnone : c'.link.refusals E = 0) (hin : (m.link.incoming m.frame).2 = .ok g)
    (href : (m.reaction g).refused = false) :
    ∃ X Z : List Event, E = X ++ m.answer ++ Z
      ∧ (m.linkBehind g).events = c.link.events ++ X
      ∧ X.filterMap written? = X.filterMap accepted?
      ∧ m.answer.filterMap written? = m.answer.filterMap accepted?
      ∧ (∀ m' ∈ back, ∃ Z', m'.link.events = c.link.events ++ (X ++ m.answer ++ Z'))
      ∧ ((m.linkBehind g).closeSent ↔ ∃ f octets, .accept f octets ∈ X ∧ f.opcode = .close)
      ∧ (handedIn m.answer).filter (·.opcode = .pong) = m.pong?.toList
      ∧ (g.opcode = .ping → m.fate = .taken g ∧ m.linkAfter.closed = false
        ∧ if (m.linkBehind g).closeSent then m.linkAfter = m.linkBehind g ∧ m.answer = []
          else ∃ octets F,
            m.answer = .accept (.single .pong g.payload) octets :: F ∧ Flush F) := by
  obtain ⟨k, f, hfront, hk, rfl, hback⟩ := h.split
  obtain ⟨X, hX, hafter, hwritten, hwritten', htallies, hall⟩ :=
    hfront.answered hin hk href hfresh hc
  rw [linkAfter_encounter hk] at hafter htallies hall
  obtain ⟨Z, hZ, -, hle⟩ := htallies.reaches hback.reaches
  have hwhole : E = X ++ (k.encounter f).answer ++ Z := by
    have hboth : c.link.events ++ E = c.link.events ++ (X ++ (k.encounter f).answer ++ Z) := by
      rw [← hE, hZ, hafter, List.append_assoc]
    exact List.append_cancel_left hboth
  rw [← hwhole] at hle
  obtain ⟨hsent, hpongs, hping⟩ := hall (Nat.eq_zero_of_le_zero (hnone ▸ hle))
  refine ⟨X, Z, hwhole, hX, hwritten, hwritten', ?_, hsent, hpongs, ?_⟩
  · intro m' hm'
    obtain ⟨Z', hZ'⟩ := hback.events_back hm'
    exact ⟨Z', by rw [hZ', hafter, List.append_assoc]⟩
  · rw [linkAfter_encounter hk]
    exact hping

end

namespace Client

open Event

variable {σ ε : Type} [Extension ε] [Session σ]

/-- **Every ping gets its pong.**  `E` is what happens in a run of a client whose handler is a
channel that was just connected.  None of the frames that are met is refused by an extension or
the application, and none that is sent is refused by an extension or the encoder; besides that,
anything may befall the client.

Of the frames that the channel hands in by itself the pongs are, in order, those that it owes:
one for each ping that the application was given, with the same payload, unless a close frame
was sent before the application returned.

At each encounter, until the application returns `X` happens, in which all that was accepted is
written; then comes the answer, and only then the next frame is met.  If a ping was given to the
application, the channel goes on.  The answer to it is the pong and what is sent from within the
writes that this brings about; if a close frame was sent before, nothing happens.

A close frame that is accepted is the last frame that is accepted, and the last that is
written. -/
theorem pings_answered (channel : Channel σ ε) (hfresh : channel.link.Fresh)
    (hopen : channel.closed = false) (actions : List Action)
    (hcalls : ∀ m ∈ (ofChannel channel).encounters actions,
      ∃ g, (m.link.incoming m.frame).2 = .ok g ∧ (m.reaction g).refused = false)
    (hsends : ((ofChannel channel).run actions).link.refusals
      (((ofChannel channel).run actions).events.drop channel.link.events.length) = 0) :
    let start := ofChannel channel
    let final := start.run actions
    let met := start.encounters actions
    ∃ E : List Event, final.events = channel.link.events ++ E
      ∧ met.flatMap (fun m => (handedIn m.answer).filter (·.opcode = .pong))
        = met.filterMap Encounter.pong?
      ∧ (∀ front m back, met = front ++ m :: back → ∀ g, (m.link.incoming m.frame).2 = .ok g →
        ∃ X Z : List Event, E = X ++ m.answer ++ Z
          ∧ (m.linkBehind g).events = channel.link.events ++ X
          ∧ X.filterMap written? = X.filterMap accepted?
          ∧ m.answer.filterMap written? = m.answer.filterMap accepted?
          ∧ (∀ m' ∈ back, ∃ Z', m'.link.events = channel.link.events ++ (X ++ m.answer ++ Z'))
          ∧ ((m.linkBehind g).closeSent ↔ ∃ f octets, .accept f octets ∈ X ∧ f.opcode = .close)
          ∧ (g.opcode = .ping → m.fate = .taken g ∧ m.linkAfter.closed = false
            ∧ if (m.linkBehind g).closeSent then m.linkAfter = m.linkBehind g ∧ m.answer = []
              else ∃ octets F,
                m.answer = .accept (.single .pong g.payload) octets :: F ∧ Flush F))
      ∧ ∀ A f octets B, E = A ++ .accept f octets :: B → f.opcode = .close →
        B.filterMap acceptedFrame? = []
          ∧ E.filterMap written? = A.filterMap accepted? ++ [octets] := by
  intro start final met
  obtain ⟨k, taken, hruns, hadvances, -⟩ := (runs_ofChannel channel).run actions
  have hmeets : channel.Meets met k := hadvances.meets
  have hfinal : final.link = k.link := hruns.link
  have hreaches : channel.link.Reaches final.link := by
    rw [hfinal]
    exact hmeets.reaches
  obtain ⟨E, hE, htallies, -⟩ := hfresh.tallies.reaches hreaches
  rw [List.nil_append] at htallies
  have hnone : k.link.refusals E = 0 := by
    have hdrop : final.events.drop channel.link.events.length = E := by
      rw [show final.events = _ from hE, List.drop_left]
    rw [← hfinal, ← hdrop]
    exact hsends
  rw [hfinal] at hE
  refine ⟨E, by rw [← hE, ← hfinal]; rfl, ?_, ?_, ?_⟩
  · rw [List.filterMap_eq_flatMap_toList]
    apply List.flatMap_congr
    intro m hm
    obtain ⟨g, hin, href⟩ := hcalls m hm
    obtain ⟨front, back, hmet⟩ := List.append_of_mem hm
    rw [hmet] at hmeets
    obtain ⟨X, Z, -, -, -, -, -, -, hpongs, -⟩ :=
      hmeets.answered_within hfresh hopen hE hnone hin href
    exact hpongs
  · intro front m back hmet g hin
    have hm : m ∈ met := by
      rw [hmet]
      exact List.mem_append_right _ List.mem_cons_self
    obtain ⟨g', hin', href⟩ := hcalls m hm
    obtain rfl : g = g' := Except.ok.inj (hin.symm.trans hin')
    rw [hmet] at hmeets
    obtain ⟨X, Z, hwhole, hX, hwritten, hanswer, hback, hsent, -, hping⟩ :=
      hmeets.answered_within hfresh hopen hE hnone hin href
    exact ⟨X, Z, hwhole, hX, hwritten, hanswer, hback, hsent, hping⟩
  · intro A f octets B hdivided hclose
    rw [hdivided] at htallies
    obtain ⟨hframes, hoctets⟩ := htallies.last_of_close hclose
    refine ⟨hframes, ?_⟩
    rw [← hfinal] at hE
    rw [hfresh.written_eq_accepted hreaches hE, hdivided, List.filterMap_append]
    show _ ++ octets :: B.filterMap accepted? = _
    rw [hoctets]

/-- Two pings arrive.  Because of the first one the application sends a message, and another
message is sent from within the write of that; because of the second one it sends a close frame.
The extension leaves its mark on the payloads, on their way in and on their way out. -/
theorem pings_answered_of_two_pings :
    let channel : Channel Script Extension.Marker :=
      Channel.connect { keys := fun _ => 0 }
        { sends := [(0, .binary [98]), (1, .close 1000 "")] } [({ label := "mark", mark := [1] })]
    let actions : List Action :=
      [.onNextWrite [.binary [99]], .arrive [.data [0x89, 1, 97]], .call .readable,
        .arrive [.data [0x89, 1, 100]], .call .readable]
    let start := ofChannel channel
    let final := start.run actions
    let met := start.encounters actions
    channel.link.Fresh ∧ channel.closed = false
      ∧ (∀ m ∈ met, ∃ g, (m.link.incoming m.frame).2 = .ok g ∧ (m.reaction g).refused = false)
      ∧ final.link.refusals (final.events.drop channel.link.events.length) = 0
      ∧ met.length = 2
      ∧ met.flatMap (fun m => (handedIn m.answer).filter (·.opcode = .pong))
        = [.single .pong [97, 1]]
      ∧ final.events.filterMap written?
        = [[0x82, 0x82, 0, 0, 0, 0, 98, 1], [0x82, 0x82, 0, 0, 0, 0, 99, 1],
          [0x8a, 0x83, 0, 0, 0, 0, 97, 1, 1], [0x88, 0x83, 0, 0, 0, 0, 3, 232, 1]] := by
  intro channel actions start final met
  have hfresh : channel.link.Fresh := Link.fresh_connect [] [] (fun _ => 0) _ _
  obtain ⟨hgiven, hnone, hlength, hpongs, hwritten⟩ :
      (met.all fun m => (m.link.incoming m.frame).2.toOption.any fun g => !(m.reaction g).refused)
        ∧ final.link.refusals (final.events.drop channel.link.events.length) = 0
        ∧ met.length = 2
        ∧ met.filterMap Encounter.pong? = [.single .pong [97, 1]]
        ∧ final.events.filterMap written?
          = [[0x82, 0x82, 0, 0, 0, 0, 98, 1], [0x82, 0x82, 0, 0, 0, 0, 99, 1],
            [0x8a, 0x83, 0, 0, 0, 0, 97, 1, 1], [0x88, 0x83, 0, 0, 0, 0, 3, 232, 1]] := by
    decide +kernel
  have hcalls : ∀ m ∈ met, ∃ g, (m.link.incoming m.frame).2 = .ok g
      ∧ (m.reaction g).refused = false := by
    intro m hm
    have hm' := List.all_eq_true.1 hgiven m hm
    rcases hin : (m.link.incoming m.frame).2 with err | g
    · rw [hin] at hm'
      cases hm'
    · rw [hin] at hm'
      exact ⟨g, rfl, by simpa [Except.toOption] using hm'⟩
  obtain ⟨E, -, hanswers, -⟩ := pings_answered channel hfresh rfl actions hcalls hnone
  exact ⟨hfresh, rfl, hcalls, hnone, hlength, hanswers.trans hpongs, hwritten⟩

end Client

end WebSocket
