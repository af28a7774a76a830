/-
WebSocket/Proofs/Client/CloseAnswers.lean

The close frames in a run in which the application sends none.

All of them are answers to the peer's close frames (`Runs.only`), so what is known of the answers
is known of all close frames that are written.
-/
import WebSocket.Proofs.Channel.CloseAnswers
import WebSocket.Proofs.Channel.ClosePayload
import WebSocket.Proofs.Channel.Origins
import WebSocket.Proofs.Client.Delivery

namespace WebSocket

/-- Whether a close frame is sent. -/
def Outgoing.isClose : Outgoing → Bool
  | close _ _ => true
  | frame f => f.opcode = .close
  | text _ | binary _ | ping _ => false

theorem Outgoing.isClose_of_toFrame {o : Outgoing} {f : Frame} (h : o.toFrame = .ok f)
    (hclose : f.opcode = .close) : o.isClose := by
  cases o with
  | text message =>
    cases h
    cases hclose
  | binary octets =>
    cases h
    cases hclose
  | ping payload =>
    simp only [toFrame] at h
    split at h
    · cases h
    · cases h
      cases hclose
  | frame g =>
    cases h
    exact decide_eq_true hclose
  | close code reason => rfl

theorem Outgoing.makesOnly_of_not_close {P : Frame → Prop} {o : Outgoing} (ho : o.isClose = false) :
    o.MakesOnly fun f => f.opcode = .close → P f := by
  intro f hf hclose
  rw [Outgoing.isClose_of_toFrame hf hclose] at ho
  cases ho

variable {σ ε : Type} [Extension ε] [Session σ]

/-- The frame is the answer to a close frame that the application was given, and did not refuse, at
one of these encounters. -/
def AnswersOneOf (met : List (Encounter σ ε)) (f : Frame) : Prop :=
  ∃ m ∈ met, ∃ g, (m.link.incoming m.frame).2 = .ok g ∧ g.opcode = .close
    ∧ (m.reaction g).refused = false ∧ f = .single .close (Close.answer g.payload)

/-- An application that sends no close frame leaves them to the channel. -/
theorem sendsOnly_answers {met : List (Encounter σ ε)} {m : Encounter σ ε} (hm : m ∈ met)
    (hreplies : ∀ g, (m.link.incoming m.frame).2 = .ok g →
      ∀ o ∈ (m.reaction g).sends, o.isClose = false) :
    m.SendsOnly fun f => f.opcode = .close → AnswersOneOf met f := by
  intro g hin
  refine ⟨fun o ho => Outgoing.makesOnly_of_not_close (hreplies g hin o ho), ?_⟩
  intro href f hf hclose
  unfold Frame.answer? at hf
  split at hf
  · cases hf
    cases hclose
  · next hg =>
    cases hf
    exact ⟨m, hm, g, hin, hg, href, rfl⟩
  · cases hf

namespace Client

/-- What the application sends by an action, now or from within the next write. -/
def Action.sends : Action → List Outgoing
  | .submit o => [o]
  | .onNextWrite sends => sends
  | .arrive _ | .call _ | .runTasks | .dropHandler => []

/-! ### Runs with frames of some kind only -/

section

variable {P : Frame → Prop} {before : List Event} {c : Client σ ε} {k : Channel σ ε}

theorem Runs.only_act (h : c.Runs k) (hk : k.link.Only P before) {a : Action}
    (hmet : ∀ m ∈ c.encountersBy a, m.SendsOnly P) (hsends : ∀ o ∈ a.sends, o.MakesOnly P) :
    (c.channelBy k a).link.Only P before := by
  cases a with
  | arrive | runTasks | dropHandler => exact hk
  | call cb =>
    rcases h.handler with hh | hh
    · obtain ⟨hby, hsame⟩ := h.channelBy_call hh cb
      rw [hsame] at hmet
      rw [hby]
      exact (Channel.preserved_only P before).react hk hmet
    · rw [Client.channelBy, hh]
      exact hk
  | submit o => exact hk.submit (hsends o (List.mem_singleton_self o))
  | onNextWrite sends =>
    refine ⟨hk.egress, hk.events, fun sends' hmem => ?_⟩
    rw [List.mem_singleton.1 hmem]
    exact hsends

/-- In a run nothing is accepted but what the application sends and what the encounters say. -/
theorem Runs.only (h : c.Runs k) (hk : k.link.Only P before) {actions : List Action}
    (hmet : ∀ m ∈ c.encounters actions, m.SendsOnly P)
    (hsends : ∀ a ∈ actions, ∀ o ∈ a.sends, o.MakesOnly P) :
    (c.run actions).link.Only P before := by
  induction actions generalizing c k with
  | nil =>
    rw [show c.run [] = c from rfl, h.link]
    exact hk
  | cons a actions ih =>
    have hact := h.only_act hk (a := a) (fun m hm => hmet m (List.mem_append_left _ hm))
      (hsends a List.mem_cons_self)
    exact ih (h.channelBy a) hact (fun m hm => hmet m (List.mem_append_right _ hm))
      fun a' ha' => hsends a' (List.mem_cons_of_mem _ ha')

end

/-! ### Runs without close frames of the application -/

/-- **Close frames are answered with codes that may be sent.**  The handler of a client is a channel
that was just connected, and the application sends no close frame in a run, `E` being what happens
in it: neither from outside, nor from within writes, nor because of frames.

Then every close frame that is accepted is the answer to one that the peer has sent and the
application was given: it is empty, or has a code that may be sent and nothing else.  There is one
exception: the code 1015, which is reserved, is given back.

What is written is what was accepted.  Extensions that leave close frames alone add nothing but the
mask, so any decoder between frames reads the answer.  If the extensions leave at least the opcodes
alone, all close frames that are written are such answers. -/
theorem close_answers (channel : Channel σ ε) (hfresh : channel.link.Fresh)
    (hwrites : ∀ sends ∈ channel.link.onWrite, ∀ o ∈ sends, o.isClose = false)
    (actions : List Action) (hactions : ∀ a ∈ actions, ∀ o ∈ a.sends, o.isClose = false)
    (hreplies : ∀ m ∈ (ofChannel channel).encounters actions, ∀ g,
      (m.link.incoming m.frame).2 = .ok g → ∀ o ∈ (m.reaction g).sends, o.isClose = false) :
    let start := ofChannel channel
    let final := start.run actions
    ∃ E : List Event, final.events = channel.link.events ++ E
      ∧ E.filterMap Event.written? = E.filterMap Event.accepted?
      ∧ (∀ f sent, .accept f sent ∈ E → f.opcode = .close →
        (∃ m ∈ start.encounters actions, ∃ g, (m.link.incoming m.frame).2 = .ok g
          ∧ g.opcode = .close ∧ (m.reaction g).refused = false
          ∧ f = .single .close (Close.answer g.payload)
          ∧ (Close.code? g.payload ≠ some 1015 → Close.Sendable f.payload)
          ∧ (Close.code? g.payload = some 1015 → f.payload = [3, 247]))
        ∧ (Extension.LeavesCloses ε → ∃ key, ∀ d : Decoder, d.stage = .start →
          2 ≤ d.limit.toNat → d.drain sent = ⟨d, [], [f.withMask key], none⟩))
      ∧ (Extension.KeepsOpcode ε → ∀ sent ∈ E.filterMap Event.written?, sent.isClose →
        ∃ f, .accept f sent ∈ E ∧ f.opcode = .close) := by
  intro start final
  have hruns : start.Runs channel := runs_ofChannel channel
  -- Nobody but the channel sends close frames, and it sends them as answers only.
  have honly : final.link.Only
      (fun f => f.opcode = .close → AnswersOneOf (start.encounters actions) f)
      channel.link.events := by
    apply hruns.only
    · exact ⟨hfresh.idle.egress, ⟨[], (List.append_nil _).symm, fun _ _ hmem => by cases hmem⟩,
        fun sends hmem o ho => Outgoing.makesOnly_of_not_close (hwrites sends hmem o ho)⟩
    · exact fun m hm => sendsOnly_answers hm (hreplies m hm)
    · exact fun a ha o ho => Outgoing.makesOnly_of_not_close (hactions a ha o ho)
  obtain ⟨E, hE, hall⟩ := honly.events
  obtain ⟨k, taken, hfinal, hadvances, -⟩ := hruns.run actions
  have hreaches : channel.link.Reaches final.link := by
    rw [hfinal.link]
    exact hadvances.meets.reaches
  have hwritten := hfresh.written_eq_accepted hreaches hE
  refine ⟨E, hE, hwritten, fun f sent hmem hclose => ?_, fun hε sent hsent hclose => ?_⟩
  · obtain ⟨m, hm, g, hin, hg, href, rfl⟩ := hall f sent hmem hclose
    refine ⟨⟨m, hm, g, hin, hg, href, rfl, (Close.sendable_answer_iff g.payload).2, ?_⟩, ?_⟩
    · intro hcode
      exact Close.answer_of_some hcode
    · intro hε
      obtain ⟨key, rfl⟩ := hfresh.closes_as_sent hε hreaches hE hmem hclose
      refine ⟨key, fun d hd hlimit => ?_⟩
      have hlength := Close.length_answer_le g.payload
      exact Decoder.drain_wire hd (ReservedBits.empty_subset _) (Frame.received_withMask _ key)
        (Decoder.fault?_single nofun (fun _ => Nat.le_trans hlength (by decide))
          (Nat.le_trans hlength hlimit))
  · -- The other way round: the octets say that it is a close frame, and extensions have not made
    -- it one.
    rw [hwritten] at hsent
    obtain ⟨f, hf⟩ := Event.exists_accept_of_mem hsent
    obtain ⟨E', hE', hcloses⟩ := hfresh.closes.reaches hε hreaches
    obtain rfl : E' = E := List.append_cancel_left (hE'.symm.trans hE)
    have hkind := hcloses.kind f sent hf
    rw [hclose] at hkind
    exact ⟨f, hf, of_decide_eq_true hkind.symm⟩

/-- The peer closes with 1005, which is reserved, and is told that it has broken the protocol. -/
theorem close_answers_of_reserved_code :
    let channel : Channel Script Extension.Identity :=
      Channel.connect { keys := fun _ => 0 } { sends := [(0, .binary [97])] } []
    let actions : List Action :=
      [.onNextWrite [.text "b"], .arrive [.data [0x88, 2, 3, 237]], .call .readable]
    let start := ofChannel channel
    let final := start.run actions
    let answer : Frame := .single .close [3, 234]
    channel.link.Fresh
      ∧ (∀ sends ∈ channel.link.onWrite, ∀ o ∈ sends, o.isClose = false)
      ∧ (∀ a ∈ actions, ∀ o ∈ a.sends, o.isClose = false)
      ∧ (∀ m ∈ start.encounters actions, ∀ g, (m.link.incoming m.frame).2 = .ok g →
        ∀ o ∈ (m.reaction g).sends, o.isClose = false)
      ∧ Close.Sendable answer.payload
      ∧ ∃ sent ∈ final.events.filterMap Event.written?, sent.isClose
        ∧ ∃ key, (({} : Decoder).drain sent).frames = [answer.withMask key] := by
  intro channel actions start final answer
  have hfresh : channel.link.Fresh := Link.fresh_connect [] [] (fun _ => 0) _ _
  have hwrites : ∀ sends ∈ channel.link.onWrite, ∀ o ∈ sends, o.isClose = false :=
    List.forall_mem_nil _
  have hactions : ∀ a ∈ actions, ∀ o ∈ a.sends, o.isClose = false := by decide +kernel
  obtain ⟨hnone, haccepted, sent, hsent, hclose⟩ :
      ((start.encounters actions).all fun m => (m.link.incoming m.frame).2.toOption.all fun g =>
          (m.reaction g).sends.all (!·.isClose))
        ∧ final.events.filterMap Event.acceptedFrame?
          = [.single .binary [97], .single .text [98], answer]
        ∧ ∃ sent ∈ final.events.filterMap Event.written?, sent.isClose := by
    decide +kernel
  have hreplies : ∀ m ∈ start.encounters actions, ∀ g, (m.link.incoming m.frame).2 = .ok g →
      ∀ o ∈ (m.reaction g).sends, o.isClose = false := by
    intro m hm g hin o ho
    have hm' := List.all_eq_true.1 hnone m hm
    rw [hin] at hm'
    simpa using List.all_eq_true.1 hm' o ho
  obtain ⟨E, hE, -, hall, hcloses⟩ :=
    close_answers channel hfresh hwrites actions hactions hreplies
  obtain rfl : final.events = E := hE
  obtain ⟨f, hf, hopcode⟩ := hcloses Extension.keepsOpcode_identity sent hsent hclose
  obtain ⟨-, hread⟩ := hall f sent hf hopcode
  obtain ⟨key, hkey⟩ := hread Extension.leavesCloses_identity
  -- Of the three frames that were accepted, it is the last.
  have hmem : f ∈ final.events.filterMap Event.acceptedFrame? :=
    List.mem_filterMap.2 ⟨_, hf, rfl⟩
  rw [haccepted] at hmem
  obtain rfl : f = answer := by
    rcases List.mem_cons.1 hmem with rfl | hmem
    · cases hopcode
    rcases List.mem_cons.1 hmem with rfl | hmem
    · cases hopcode
    · exact List.mem_singleton.1 hmem
  refine ⟨hfresh, hwrites, hactions, hreplies, by decide, sent, hsent, hclose, key, ?_⟩
  rw [hkey {} rfl (by decide)]

/-- **A reserved code that is sent.**  The peer closes with 1015, and the answer gives it back. -/
theorem close_answered_with_1015 :
    let channel : Channel Script Extension.Identity :=
      Channel.connect { keys := fun _ => 0 } {} []
    let actions : List Action := [.arrive [.data [0x88, 2, 3, 247]], .call .readable]
    let start := ofChannel channel
    let final := start.run actions
    channel.link.Fresh
      ∧ (∀ sends ∈ channel.link.onWrite, ∀ o ∈ sends, o.isClose = false)
      ∧ (∀ a ∈ actions, ∀ o ∈ a.sends, o.isClose = false)
      ∧ (start.encounters actions).all (fun m => (m.link.incoming m.frame).2.toOption.all fun g =>
        (m.reaction g).sends.all (!·.isClose))
      ∧ final.events.filterMap Event.acceptedFrame? = [.single .close [3, 247]]
      ∧ final.events.filterMap Event.written? = [[0x88, 0x82, 0, 0, 0, 0, 3, 247]]
      ∧ Bytes.toNat [3, 247] = 1015 ∧ ¬Close.Sendable [3, 247] := by
  refine ⟨Link.fresh_connect [] [] (fun _ => 0) _ _, ?_, ?_, ?_, ?_, ?_, ?_, ?_⟩ <;> decide +kernel

end Client

end WebSocket
