/-
WebSocket/Proofs/Channel/Course.lean

The frames that a channel meets, one after the other.

Design.  `encounters` are those of a channel with given frames, `encountered` those with the
frames that are complete in its buffer, and `encountersOn` those of a call of the endpoint.

About them there are two statements, one on what they do and one on which they are.  `Meets`
is the course of a channel as its log shows it: frames are met one by one, and between them
the application sends and the endpoint may be closed.  From these few steps it follows that
the deliveries in the log are those of the encounters (`Meets.logged`) and that no frame is
met behind the last one (`Meets.isLast`).

`HasRead` says which frames are met: those that the decoder makes of the stream, in their
order, all of them or those up to the last one.

Each call of the endpoint takes a channel further in both respects (`advances_react`).
-/
import WebSocket.Proofs.Channel.Encounter
import WebSocket.Proofs.Frame.Pieces

namespace WebSocket

/-- The octets of what arrives. -/
def Inbound.octets : Inbound → Bytes
  | data octets => octets
  | _ => []

namespace Channel

variable {σ ε : Type} [Extension ε] [Session σ]

/-! ### The encounters -/

/-- The encounters with these frames, as far as they are read. -/
def encounters (c : Channel σ ε) : List Frame → List (Encounter σ ε)
  | [] => []
  | f :: fs => if c.closed then [] else c.encounter f :: (c.take f).encounters fs

/-- The encounters with the frames that are complete in the buffer. -/
def encountered (c : Channel σ ε) : List (Encounter σ ε) :=
  c.encounters (c.decoder.drain c.buffer.toList).frames

/-- The encounters when a channel deals with what has arrived. -/
def readEncounters (c : Channel σ ε) : List Inbound → List (Encounter σ ε)
  | .data octets :: input =>
    if c.closed || octets.isEmpty then []
    else
      let read : Channel σ ε := { c.record .fill with buffer := c.buffer ++ octets }
      read.encountered ++ readEncounters read.proceed input
  | _ => []

/-- The encounters of a call of the endpoint, where `input` has arrived. -/
def encountersOn (c : Channel σ ε) (input : List Inbound) : Callback → List (Encounter σ ε)
  | .opened => c.encountered
  | .readable => c.readEncounters input
  | .written _ | .aborted => []

@[simp] theorem encounters_nil (c : Channel σ ε) : c.encounters [] = [] := rfl

theorem encounters_of_closed {c : Channel σ ε} (hc : c.closed) (fs : List Frame) :
    c.encounters fs = [] := by
  cases fs with
  | nil => rfl
  | cons f fs => exact if_pos hc

theorem encounters_cons {c : Channel σ ε} (hc : c.closed = false) (f : Frame)
    (fs : List Frame) : c.encounters (f :: fs) = c.encounter f :: (c.take f).encounters fs :=
  if_neg (by simp [hc])

/-- They depend on neither the decoder nor what is left to decode. -/
theorem encounters_with (c : Channel σ ε) (fs : List Frame) (decoder : Decoder)
    (buffer : Array UInt8) : encounters { c with decoder, buffer } fs = c.encounters fs := by
  induction fs generalizing c with
  | nil => rfl
  | cons f fs ih =>
    by_cases hc : c.closed
    · rw [encounters_of_closed hc, encounters_of_closed (c := { c with decoder, buffer }) hc]
    · have hopen : c.closed = false := by simpa using hc
      rw [encounters_cons hopen, encounters_cons (c := { c with decoder, buffer }) hopen,
        take_with, ih]
      rfl

/-- The encounters behind a frame are those of the channel that has dealt with it. -/
theorem encounters_take (c : Channel σ ε) (f : Frame) (decoder : Decoder) (input : Bytes) :
    let read : Channel σ ε := take { c with decoder } f
    read.encounters (read.decoder.drain input).frames
      = (c.take f).encounters (decoder.drain input).frames := by
  intro read
  have hread : read = { c.take f with decoder, buffer := c.buffer } :=
    take_with c f decoder c.buffer
  rw [hread, encounters_with]

theorem readEncounters_of_closed {c : Channel σ ε} (hc : c.closed) (input : List Inbound) :
    c.readEncounters input = [] := by
  unfold readEncounters
  split
  · exact if_pos (by simp [hc])
  · rfl

theorem readEncounters_data {c : Channel σ ε} (hc : c.closed = false) {octets : Bytes}
    (hne : octets ≠ []) (input : List Inbound) :
    c.readEncounters (.data octets :: input)
      = encountered { c.record .fill with buffer := c.buffer ++ octets }
        ++ readEncounters { c.record .fill with buffer := c.buffer ++ octets }.proceed input := by
  rw [readEncounters, if_neg (by simp [hc, hne])]

/-! ### The course of a channel -/

/-- What happens to a channel besides the frames that it meets. -/
inductive Moves (c : Channel σ ε) : Channel σ ε → Prop
  | decode (decoder : Decoder) (buffer : Array UInt8) : Moves c { c with decoder, buffer }
  | submit (o : Outgoing) : Moves c { c with link := (c.link.submit o).1 }
  | onWrite (nested : List (List Outgoing)) :
      Moves c { c with link := { c.link with onWrite := nested } }
  | fill : Moves c (c.record .fill)
  | fillInterested : Moves c (c.record .fillInterested)
  | shutdown : Moves c c.shutdown

/-- A channel that was `c` has had these encounters, and now it is another one. -/
inductive Meets (c : Channel σ ε) : List (Encounter σ ε) → Channel σ ε → Prop
  | refl : Meets c [] c
  | take {met : List (Encounter σ ε)} {k : Channel σ ε} (h : Meets c met k)
      (hk : k.closed = false) (f : Frame) : Meets c (met ++ [k.encounter f]) (k.take f)
  | move {met : List (Encounter σ ε)} {k k' : Channel σ ε} (h : Meets c met k)
      (hk : k.Moves k') : Meets c met k'

omit [Session σ] in
/-- The endpoint stays closed. -/
theorem Moves.closed {c c' : Channel σ ε} (h : c.Moves c') (hc : c.closed) : c'.closed := by
  cases h with
  | decode | submit | onWrite | fill | fillInterested => exact hc
  | shutdown => rfl

omit [Session σ] in
theorem Moves.reaches {c c' : Channel σ ε} (h : c.Moves c') : c.link.Reaches c'.link := by
  cases h with
  | decode => exact .refl
  | submit o => exact .submit .refl o
  | onWrite nested => exact .onWrite .refl nested
  | fill | fillInterested => exact .note .refl rfl
  | shutdown => exact reaches_shutdown c

namespace Meets

variable {c c' c'' : Channel σ ε} {met met' : List (Encounter σ ε)}

theorem trans (h : c.Meets met c') (h' : c'.Meets met' c'') : c.Meets (met ++ met') c'' := by
  induction h' with
  | refl =>
    rw [List.append_nil]
    exact h
  | take _ hk f ih =>
    rw [← List.append_assoc]
    exact ih.take hk f
  | move _ hk ih => exact ih.move hk

/-- Once the endpoint is closed, nothing is met any more. -/
theorem of_closed (h : c.Meets met c') (hc : c.closed) : met = [] ∧ c'.closed := by
  induction h with
  | refl => exact ⟨rfl, hc⟩
  | take _ hk f ih => exact absurd ih.2 (by simp [hk])
  | move _ hk ih => exact ⟨ih.1, hk.closed ih.2⟩

/-- To the link this is nothing but what a channel can do. -/
theorem reaches (h : c.Meets met c') : c.link.Reaches c'.link := by
  induction h with
  | refl => exact .refl
  | @take _ k _ _ f ih => exact ih.trans (reaches_take k f)
  | move _ hk ih => exact ih.trans hk.reaches

/-- Each encounter is with a channel that is not closed, and divides the course. -/
theorem split {front back : List (Encounter σ ε)} {m : Encounter σ ε}
    (h : c.Meets (front ++ m :: back) c') :
    ∃ (k : Channel σ ε) (f : Frame), c.Meets front k ∧ k.closed = false ∧ m = k.encounter f
      ∧ (k.take f).Meets back c' := by
  generalize hmet : front ++ m :: back = met at h
  induction h generalizing back with
  | refl => simp at hmet
  | @take met k h hk f ih =>
    cases back using List.reverseRecOn with
    | nil =>
      obtain ⟨rfl, hm⟩ := List.append_inj' hmet rfl
      obtain rfl : m = k.encounter f := List.head_eq_of_cons_eq hm
      exact ⟨k, f, h, hk, rfl, .refl⟩
    | append_singleton back last =>
      have hsame : (front ++ m :: back) ++ [last] = met ++ [k.encounter f] := by
        rw [← hmet, List.append_assoc]
        rfl
      obtain ⟨hbefore, hlast⟩ := List.append_inj' hsame rfl
      obtain rfl : last = k.encounter f := List.head_eq_of_cons_eq hlast
      obtain ⟨k', f', hfront, hk', hm, hback⟩ := ih hbefore
      exact ⟨k', f', hfront, hk', hm, hback.take hk f⟩
  | move _ hk ih =>
    obtain ⟨k, f, hfront, hk', hm, hback⟩ := ih hmet
    exact ⟨k, f, hfront, hk', hm, hback.move hk⟩

end Meets

/-! ### What the log shows -/

/-- In the log of `c'` there are the deliveries of these encounters behind what was in that
of `c`, and it shows whether the endpoint was closed. -/
structure Logged (c : Channel σ ε) (met : List (Encounter σ ε)) (c' : Channel σ ε) : Prop where
  events : ∃ E : List Event, c'.link.events = c.link.events ++ E
    ∧ E.filterMap Event.delivered? = met.filterMap (·.fate.delivered?)
    ∧ (.close ∈ E ↔ c'.closed)
  link : c'.link.closed = (c.link.closed || c'.closed)

namespace Logged

variable {c k : Channel σ ε} {met met' : List (Encounter σ ε)}

theorem refl (hc : c.closed = false) : c.Logged [] c :=
  ⟨⟨[], by simp, rfl, by simp [hc]⟩, by simp [hc]⟩

theorem serves (h : c.Logged met k) {given : Option Frame} {session : σ} {l : Link ε}
    (hl : k.link.Serves given l)
    (hmet : met'.filterMap (·.fate.delivered?)
      = met.filterMap (·.fate.delivered?) ++ given.toList) :
    c.Logged met' { k with session, link := l } := by
  obtain ⟨⟨E, hE, hgiven, hclose⟩, hlink⟩ := h
  obtain ⟨hclosed, E', hE', hgiven', hclose'⟩ := hl
  refine ⟨⟨E ++ E', ?_, ?_, ?_⟩, hclosed.trans hlink⟩
  · rw [← List.append_assoc, ← hE]
    exact hE'
  · rw [List.filterMap_append, hgiven, hgiven', hmet]
  · simpa [hclose'] using hclose

theorem shutdown (h : c.Logged met k) : c.Logged met k.shutdown := by
  obtain ⟨⟨E, hE, hgiven, -⟩, -⟩ := h
  refine ⟨⟨E ++ [.close], ?_, ?_, ?_⟩, (Bool.or_true _).symm⟩
  · rw [← List.append_assoc, ← hE]
    exact Link.events_record { k.link with closed := true } .close
  · rw [List.filterMap_append, hgiven]
    simp [Event.delivered?]
  · simp [Channel.shutdown]

theorem take (h : c.Logged met k) (f : Frame) :
    c.Logged (met ++ [k.encounter f]) (k.take f) := by
  obtain ⟨session, link, hserves, htake⟩ := exists_take_eq k f
  have hgiven : c.Logged (met ++ [k.encounter f]) { k with session, link } := by
    apply h.serves hserves
    rw [List.filterMap_append]
    rcases hgiven : (k.encounter f).fate.delivered? with - | g <;> simp [hgiven]
  rw [htake]
  split
  · exact hgiven.shutdown
  · exact hgiven

theorem move {k' : Channel σ ε} (h : c.Logged met k) (hk : k.Moves k') : c.Logged met k' := by
  have hsame : met.filterMap (·.fate.delivered?)
      = met.filterMap (·.fate.delivered?) ++ (none : Option Frame).toList := by simp
  cases hk with
  | decode => exact ⟨h.events, h.link⟩
  | submit o => exact h.serves (Link.sending_submit k.link o).serves hsame
  | onWrite nested => exact h.serves (Link.Sending.queue .refl nested _ _).serves hsame
  | fill => exact h.serves ⟨rfl, [.fill], by simp, rfl, by simp⟩ hsame
  | fillInterested => exact h.serves ⟨rfl, [.fillInterested], by simp, rfl, by simp⟩ hsame
  | shutdown => exact h.shutdown

end Logged

/-- What was delivered, and whether the endpoint was closed, shows in the log. -/
theorem Meets.logged {c c' : Channel σ ε} {met : List (Encounter σ ε)} (h : c.Meets met c')
    (hc : c.closed = false) : c.Logged met c' := by
  induction h with
  | refl => exact .refl hc
  | take _ _ f ih => exact ih.take f
  | move _ hk ih => exact ih.move hk

/-- No frame is met behind the last one, at which the endpoint is closed. -/
theorem Meets.isLast {c c' : Channel σ ε} {front back : List (Encounter σ ε)}
    {m : Encounter σ ε} (h : c.Meets (front ++ m :: back) c') (hm : m.fate.isLast) :
    back = [] ∧ c'.closed := by
  obtain ⟨k, f, -, -, rfl, hback⟩ := h.split
  obtain ⟨session, link, -, htake⟩ := exists_take_eq k f
  rw [if_pos hm] at htake
  apply hback.of_closed
  rw [htake]
  rfl

/-! ### Reading from the buffer -/

theorem meets_process (c : Channel σ ε) (input : Bytes) :
    c.Meets (c.encounters (c.decoder.drain input).frames) (c.process input) := by
  induction c, input using process_induction with
  | closed c input hc =>
    rw [encounters_of_closed hc, process_of_closed hc]
    exact .move .refl (.decode _ _)
  | wait c input hc h =>
    rw [Decoder.drain_of_wait h, process_of_wait hc h]
    exact .move .refl (.decode _ _)
  | error c input e hc h =>
    rw [Decoder.drain_of_error h, process_of_error hc h]
    exact .move (.move .refl (.decode _ _)) .shutdown
  | frame c input f hc h ih =>
    have hread : c.Meets [] { c with decoder := (c.decoder.decode input).decoder } :=
      .move .refl (.decode _ c.buffer)
    rw [Decoder.drain_of_frame h, encounters_cons hc, process_of_frame hc h]
    rw [encounters_take] at ih
    exact (hread.take hc f).trans ih

theorem meets_proceed (c : Channel σ ε) : c.Meets c.encountered c.proceed := by
  rw [proceed_eq_process]
  exact meets_process c _

/-! ### The frames that are met -/

/-- Between two calls: `stream` was read, by a decoder that was `d` at first.  All its frames
were met, or those up to the last one. -/
structure HasRead (d : Decoder) (stream : Bytes) (met : List (Encounter σ ε))
    (c : Channel σ ε) : Prop where
  frames : met.map Encounter.frame = (d.drain stream).frames
    ∨ (∃ m ∈ met, m.fate.isLast) ∧ met.map Encounter.frame <+: (d.drain stream).frames
  waits : c.closed = false →
    d.drain stream = ⟨c.decoder, c.buffer.toList, met.map Encounter.frame, none⟩

theorem HasRead.of_waits {d : Decoder} {stream : Bytes} {met : List (Encounter σ ε)}
    {c : Channel σ ε}
    (h : d.drain stream = ⟨c.decoder, c.buffer.toList, met.map Encounter.frame, none⟩) :
    HasRead d stream met c :=
  ⟨.inl (by rw [h]), fun _ => h⟩

/-- A frame at which the endpoint is closed was the last one. -/
theorem isLast_of_take_closed {c : Channel σ ε} (hc : c.closed = false) {f : Frame}
    (h : (c.take f).closed) : (c.encounter f).fate.isLast := by
  obtain ⟨session, link, -, htake⟩ := exists_take_eq c f
  by_contra hlast
  rw [htake, if_neg hlast] at h
  exact absurd h (by simp [hc])

theorem hasRead_process {c : Channel σ ε} (hc : c.closed = false) (input : Bytes) :
    HasRead c.decoder input (c.encounters (c.decoder.drain input).frames) (c.process input) := by
  induction c, input using process_induction with
  | closed c input hclosed => exact absurd hclosed (by simp [hc])
  | wait c input _ h =>
    apply HasRead.of_waits
    rw [Decoder.drain_of_wait h, process_of_wait hc h]
    simp
  | error c input e _ h =>
    rw [Decoder.drain_of_error h, process_of_error hc h]
    refine ⟨.inl ?_, fun hopen => by cases hopen⟩
    rw [Decoder.drain_of_error h]
    rfl
  | frame c input f _ h ih =>
    have hread : ({ c with decoder := (c.decoder.decode input).decoder } : Channel σ ε).take f
        = { c.take f with decoder := (c.decoder.decode input).decoder, buffer := c.buffer } :=
      take_with c f _ c.buffer
    rw [encounters_take, decoder_take] at ih
    rw [Decoder.drain_of_frame h, encounters_cons hc, process_of_frame hc h]
    by_cases htake : (c.take f).closed
    · have hlast := isLast_of_take_closed hc htake
      rw [encounters_of_closed htake, process_of_closed (by rw [hread]; exact htake)]
      refine ⟨.inr ⟨⟨_, List.mem_singleton_self _, hlast⟩, ?_⟩, ?_⟩
      · rw [Decoder.drain_of_frame h]
        exact List.cons_prefix_cons.2 ⟨rfl, List.nil_prefix⟩
      · intro hopen
        rw [hread] at hopen
        exact absurd htake (by simpa using hopen)
    · obtain ⟨hframes, hwaits⟩ := ih (by rw [hread]; simpa using htake)
      constructor
      · rw [Decoder.drain_of_frame h]
        rcases hframes with heq | ⟨⟨m, hm, hlast⟩, hprefix⟩
        · exact .inl (congrArg (f :: ·) heq)
        · exact .inr ⟨⟨m, List.mem_cons_of_mem _ hm, hlast⟩,
            List.cons_prefix_cons.2 ⟨rfl, hprefix⟩⟩
      · intro hopen
        have hwhole := Decoder.drain_of_frame h
        rw [hwaits hopen] at hwhole
        exact hwhole

/-- More of the stream has arrived in the buffer. -/
theorem HasRead.proceed {d : Decoder} {stream : Bytes} {met : List (Encounter σ ε)}
    {c : Channel σ ε} (h : HasRead d stream met c) (hc : c.closed = false) (octets : Bytes) :
    let c' : Channel σ ε := { c with buffer := c.buffer ++ octets }
    HasRead d (stream ++ octets) (met ++ c'.encountered) c'.proceed := by
  intro c'
  obtain ⟨hframes, hwaits⟩ := hasRead_process (c := c') hc c'.buffer.toList
  have hbuffer : c'.buffer.toList = c.buffer.toList ++ octets := by simp [c']
  have hdrain : d.drain (stream ++ octets)
      = { c.decoder.drain c'.buffer.toList with
          frames := met.map Encounter.frame ++ (c.decoder.drain c'.buffer.toList).frames } := by
    rw [Decoder.drain_append, h.waits hc, hbuffer]
    rfl
  rw [proceed_eq_process]
  constructor
  · rw [hdrain, List.map_append]
    rcases hframes with heq | ⟨⟨m, hm, hlast⟩, hprefix⟩
    · exact .inl (congrArg _ heq)
    · exact .inr ⟨⟨m, List.mem_append_right _ hm, hlast⟩,
        (List.prefix_append_right_inj _).2 hprefix⟩
  · intro hopen
    rw [hdrain, show c.decoder = c'.decoder from rfl, hwaits hopen, List.map_append]
    rfl

/-! ### The calls of the endpoint -/

/-- A channel that was `c` has read these octets and had these encounters, and now it is
`c'`. -/
structure Advances (c : Channel σ ε) (taken : Bytes) (met : List (Encounter σ ε))
    (c' : Channel σ ε) : Prop where
  meets : c.Meets met c'
  hasRead : ∀ {d stream before}, HasRead d stream before c →
    HasRead d (stream ++ taken) (before ++ met) c'

namespace Advances

variable {c c' c'' : Channel σ ε} {taken taken' : Bytes} {met met' : List (Encounter σ ε)}

theorem refl (c : Channel σ ε) : c.Advances [] [] c :=
  ⟨.refl, fun h => by simpa using h⟩

theorem trans (h : c.Advances taken met c') (h' : c'.Advances taken' met' c'') :
    c.Advances (taken ++ taken') (met ++ met') c'' := by
  refine ⟨h.meets.trans h'.meets, ?_⟩
  intro d stream before hread
  rw [← List.append_assoc, ← List.append_assoc]
  exact h'.hasRead (h.hasRead hread)

/-- Whatever happens between the frames, nothing is read. -/
theorem of_moves (h : c.Moves c') (hdecoder : c'.decoder = c.decoder)
    (hbuffer : c'.buffer = c.buffer) : c.Advances [] [] c' := by
  refine ⟨.move .refl h, ?_⟩
  intro d stream before hread
  rw [List.append_nil, List.append_nil]
  refine ⟨hread.frames, ?_⟩
  intro hopen
  have hc : c.closed = false := by
    by_contra hclosed
    exact absurd (h.closed (by simpa using hclosed)) (by simp [hopen])
  rw [hdecoder, hbuffer]
  exact hread.waits hc

theorem proceed (hc : c.closed = false) (octets : Bytes) :
    let c' : Channel σ ε := { c with buffer := c.buffer ++ octets }
    c.Advances octets c'.encountered c'.proceed :=
  ⟨(Meets.move .refl (.decode c.decoder _)).trans (meets_proceed _), fun h => h.proceed hc octets⟩

end Advances

theorem advances_fill (c : Channel σ ε) : c.Advances [] [] (c.record .fill) :=
  .of_moves .fill rfl rfl

theorem advances_shutdown (c : Channel σ ε) : c.Advances [] [] c.shutdown :=
  .of_moves .shutdown rfl rfl

theorem advances_await (c : Channel σ ε) : c.Advances [] [] c.await := by
  unfold await
  split
  · exact .refl c
  · exact .of_moves .fillInterested rfl rfl

theorem advances_readable (c : Channel σ ε) (input : List Inbound) :
    ∃ taken, input.flatMap Inbound.octets = taken ++ (c.readable input).2.flatMap Inbound.octets
      ∧ c.Advances taken (c.readEncounters input) (c.readable input).1 := by
  induction c, input using readable_induction with
  | closed c input hc =>
    rw [readEncounters_of_closed hc, readable_of_closed hc]
    exact ⟨[], rfl, .refl c⟩
  | nil c hc =>
    rw [readable_nil hc]
    exact ⟨[], rfl, (advances_fill c).trans (advances_await _)⟩
  | empty c input hc =>
    rw [readable_empty hc]
    exact ⟨[], rfl, (advances_fill c).trans (advances_await _)⟩
  | data_nil c input hc =>
    rw [readable_data_nil hc, readEncounters, if_pos (by simp)]
    exact ⟨[], rfl, (advances_fill c).trans (advances_await _)⟩
  | data c octets input hc hne ih =>
    obtain ⟨taken, htaken, hadvances⟩ := ih
    have hfill := advances_fill c
    have hproceed := Advances.proceed (c := c.record .fill) hc octets
    rw [readable_data hc hne, readEncounters_data hc hne, List.flatMap_cons, htaken]
    exact ⟨octets ++ taken, (List.append_assoc ..).symm,
      hfill.trans (hproceed.trans hadvances)⟩
  | ended c input hc =>
    rw [readable_ended hc]
    exact ⟨[], rfl, (advances_fill c).trans (advances_shutdown _)⟩
  | failed c message input hc =>
    rw [readable_failed hc]
    exact ⟨[], rfl, (advances_fill c).trans (advances_shutdown _)⟩

theorem advances_opened (c : Channel σ ε) : c.Advances [] c.encountered c.opened := by
  rcases hc : c.closed with - | -
  · -- Whatever is in the buffer, nothing joins it.
    have hproceed := Advances.proceed hc []
    have hsame : ({ c with buffer := c.buffer ++ ([] : Bytes) } : Channel σ ε) = c := by simp
    dsimp only at hproceed
    rw [hsame] at hproceed
    have hopened := hproceed.trans (advances_await c.proceed)
    rw [List.append_nil, List.append_nil] at hopened
    exact hopened
  · have hstay : c.opened = c := by
      rw [opened, proceed_eq_process, process_of_closed hc, await, if_pos hc]
    rw [hstay, encountered, encounters_of_closed hc]
    exact .refl c

/-- At first there is what came with the answer to the request. -/
theorem hasRead_opened {c : Channel σ ε} (hc : c.closed = false) :
    HasRead c.decoder c.buffer.toList c.encountered c.opened := by
  have hproceed := hasRead_process hc c.buffer.toList
  rw [← proceed_eq_process] at hproceed
  have hawait := (advances_await c.proceed).hasRead hproceed
  rw [List.append_nil, List.append_nil] at hawait
  exact hawait

/-- With each call of the endpoint a channel goes on.  What it takes of the octets that have
arrived joins the stream. -/
theorem advances_react (c : Channel σ ε) (input : List Inbound) (cb : Callback) :
    ∃ taken,
      input.flatMap Inbound.octets = taken ++ (c.react input cb).2.flatMap Inbound.octets
      ∧ c.Advances taken (c.encountersOn input cb) (c.react input cb).1 := by
  cases cb with
  | opened => exact ⟨[], rfl, advances_opened c⟩
  | readable => exact advances_readable c input
  | written failure =>
    refine ⟨[], rfl, ?_⟩
    show c.Advances [] [] (c.written failure)
    unfold written
    split
    · exact advances_shutdown c
    · exact .refl c
  | aborted =>
    refine ⟨[], rfl, ?_⟩
    show c.Advances [] [] c.aborted
    unfold aborted
    split
    · exact .refl c
    · exact advances_shutdown c

end Channel

end WebSocket
