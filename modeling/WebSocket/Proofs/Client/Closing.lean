/-
WebSocket/Proofs/Client/Closing.lean

The closing handshake in a run.

The handler of a client is a channel that was just connected, and then anything befalls the
client: the application sends, also from within writes and because of frames, and anything
arrives.  All of this is the course of a channel (`Runs.run`), so the invariant of the link
holds throughout, and each of the peer's close frames divides the course.
-/
import WebSocket.Proofs.Channel.Closing
import WebSocket.Proofs.Client.Delivery

namespace WebSocket.Client

variable {σ ε : Type} [Extension ε] [Session σ]

/-- **At most one close frame is written, and nothing behind it.**  Of what is written in a
run, `E` being what happens in it, all but the last is no close frame.  At every moment, also
in the middle of a write, at which a close frame was accepted, a frame that is sent is refused,
and nothing changes.

When the peer's close frame comes out of the extensions and the application does not refuse
it, the link is `answered`, and then the endpoint is closed for the first time.  If neither an
extension nor the encoder has refused a frame until then, exactly one close frame was written,
as the last of all: if one was sent before, there is no answer, and otherwise it is the
answer. -/
theorem closing_handshake (hε : Extension.KeepsOpcode ε) (channel : Channel σ ε)
    (hfresh : channel.link.Fresh) (hopen : channel.closed = false) (actions : List Action) :
    let start := ofChannel channel
    let final := start.run actions
    ∃ E : List Event, final.events = channel.link.events ++ E
      ∧ (E.filterMap Event.written?).Pairwise (fun octets _ => octets.isClose = false)
      ∧ channel.link.Reaches final.link
      ∧ (∀ between moment, channel.link.Reaches between → between.Sending moment →
        ∀ f octets, .accept f octets ∈ moment.events.drop channel.link.events.length →
          f.opcode = .close →
          ∀ g, moment.send g = (moment, .error .closed)
            ∧ moment.accept g = (moment, .error .closed))
      ∧ ∀ m ∈ start.encounters actions, ∀ g, (m.link.incoming m.frame).2 = .ok g →
        g.opcode = .close → (m.reaction g).refused = false →
        let behind := m.linkBehind g
        let answered := behind.answerClose g.payload
        ∃ X : List Event, answered.events = channel.link.events ++ X
          ∧ X ++ [.close] <+: E ∧ .close ∉ X
          ∧ (answered.refusals X = 0 →
            ∃ front octets, X.filterMap Event.written? = front ++ [octets]
              ∧ octets.isClose ∧ (∀ o ∈ front, o.isClose = false)
              ∧ if behind.closeSent then answered = behind
                else .accept (.single .close (Close.answer g.payload)) octets ∈ X) := by
  intro start final
  obtain ⟨k, taken, hruns, hadvances, -⟩ := (runs_ofChannel channel).run actions
  have hmeets : channel.Meets (start.encounters actions) k := hadvances.meets
  have hfinal : final.link = k.link := hruns.link
  have hreaches : channel.link.Reaches final.link := by
    rw [hfinal]
    exact hmeets.reaches
  obtain ⟨E, hE, hcloses⟩ := hfresh.closes.reaches hε hreaches
  refine ⟨E, hE, ?_, hreaches, ?_, ?_⟩
  · rw [hfresh.written_eq_accepted hreaches hE]
    exact hcloses.order
  · intro between moment hbetween hmoment f octets hmem hclose
    obtain ⟨E₀, hE₀, hcloses₀⟩ := hfresh.closes.reaches hε hbetween
    obtain ⟨E₁, hE₁, hcloses₁⟩ := hcloses₀.sending hε hmoment
    rw [hE₁, hE₀, List.append_assoc, List.drop_left] at hmem
    exact hcloses₁.refuses hmem hclose
  · intro m hm g hin hpeer href
    obtain ⟨front, back, hmet⟩ := List.append_of_mem hm
    rw [hmet] at hmeets
    obtain ⟨k', f, hfront, hk', rfl, hback⟩ := hmeets.split
    obtain ⟨X, hX, htake, hclose, hsent⟩ := hfront.closing hε hfresh hopen hk' hin hpeer href
    refine ⟨X, hX, ?_, hclose, hsent⟩
    -- What happens behind the frame only adds to the log.
    obtain ⟨later, hlater, -⟩ := hback.reaches.grows
    have hall : channel.link.events ++ E = (k'.take f).link.events ++ later.reverse := by
      rw [← hE, hfinal, Link.events, hlater, List.reverse_append]
      rfl
    rw [htake, List.append_assoc, List.append_assoc] at hall
    exact ⟨later.reverse, (List.append_assoc ..).trans (List.append_cancel_left hall).symm⟩

/-- A close frame is sent from within the write of a message, and then the peer closes: the
close frame that was written before is the only one. -/
theorem closing_handshake_of_close_in_write :
    let channel : Channel Script Extension.Marker :=
      Channel.connect { keys := fun _ => 0 } {} [({ label := "mark", mark := [1] })]
    let actions : List Action :=
      [.onNextWrite [.frame (.single .close [])], .submit (.binary [97]),
        .arrive [.data [0x88, 2, 3, 232]], .call .readable]
    let start := ofChannel channel
    let final := start.run actions
    let peers : Frame := .single .close [3, 232, 1]
    Extension.KeepsOpcode Extension.Marker ∧ channel.link.Fresh ∧ channel.closed = false
      ∧ final.events.filterMap Event.written?
        = [[0x82, 0x82, 0, 0, 0, 0, 97, 1], [0x88, 0x81, 0, 0, 0, 0, 1]]
      ∧ ∃ m ∈ start.encounters actions, (m.link.incoming m.frame).2 = .ok peers
        ∧ (m.reaction peers).refused = false
        ∧ ∃ X front octets, X ++ [.close] <+: final.events
          ∧ X.filterMap Event.written? = front ++ [octets] ∧ octets.isClose := by
  intro channel actions start final peers
  have hfresh : channel.link.Fresh := Link.fresh_connect [] [] (fun _ => 0) _ _
  obtain ⟨hwritten, m, hm, hin, href, hnone⟩ :
      final.events.filterMap Event.written?
          = [[0x82, 0x82, 0, 0, 0, 0, 97, 1], [0x88, 0x81, 0, 0, 0, 0, 1]]
        ∧ ∃ m ∈ start.encounters actions, (m.link.incoming m.frame).2 = .ok peers
          ∧ (m.reaction peers).refused = false
          ∧ Link.refusals ((m.linkBehind peers).answerClose peers.payload).events
              ((m.linkBehind peers).answerClose peers.payload) = 0 := by
    decide +kernel
  obtain ⟨E, hE, -, -, -, hclosing⟩ :=
    closing_handshake Extension.keepsOpcode_marker channel hfresh rfl actions
  obtain ⟨X, hX, hprefix, -, hone⟩ := hclosing m hm peers hin rfl href
  have hsame : ((m.linkBehind peers).answerClose peers.payload).events = X := hX
  have hall : final.events = E := hE
  rw [hsame] at hnone
  obtain ⟨front, octets, hlast, hclose, -⟩ := hone hnone
  exact ⟨Extension.keepsOpcode_marker, hfresh, rfl, hwritten, m, hm, hin, href, X, front, octets,
    by rw [hall]; exact hprefix, hlast, hclose⟩

end WebSocket.Client
