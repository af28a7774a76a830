/-
WebSocket/Proofs/Channel/Prepare.lean

What becomes of a frame on its way out, as long as nothing else is on the way.

`prepare` drains the egress behind the extensions.  `prepareAlone` is what it does where
there is no egress: one frame goes into the extensions, and the one that comes out is
written down.  Nothing that `prepareAlone` does leaves anything in the egress
(`egress_prepareAlone`), so this is all that ever happens (`prepare_eq_prepareAlone`).  It
looks at neither the log nor the queue of what waits to be written, and so it gives the
same result whoever is writing meanwhile (`prepareAlone_with`).

`attempt` is `prepareAlone` for what an application can send, and `attempts` is a number
of them, one after the other.
-/
import WebSocket.Channel.Link

namespace WebSocket.Link

variable {ε : Type} [Extension ε]

/-! ### One frame by itself -/

/-- Masks a frame and takes it out through the extensions.  The result is the written form
of the frame that comes out, or the reason why there is none. -/
def prepareAlone (l : Link ε) (f : Frame) : Link ε × Except ChannelError Bytes :=
  if l.closed || l.closeSent then (l, .error .closed)
  else match l.chain with
    | none => (l, .error .notConnected)
    | some p =>
      let (p, r) := p.outgoing { f with masked := true, mask := l.keys l.drawn }
      ({ l with chain := some p, closeSent := f.opcode = .close, drawn := l.drawn + 1 },
        match r with
        | .error e => .error (.extension e)
        | .ok g => (g.encode l.inUse).mapError .codec)

theorem prepareAlone_of_closed {l : Link ε} (h : (l.closed || l.closeSent) = true) (f : Frame) :
    l.prepareAlone f = (l, .error .closed) := by
  simp [prepareAlone, h]

theorem prepareAlone_of_none {l : Link ε} (h : (l.closed || l.closeSent) = false)
    (hc : l.chain = none) (f : Frame) : l.prepareAlone f = (l, .error .notConnected) := by
  simp [prepareAlone, h, hc]

theorem prepareAlone_of_some {l : Link ε} {p : Pipeline ε}
    (h : (l.closed || l.closeSent) = false) (hc : l.chain = some p) (f : Frame) :
    l.prepareAlone f
      = ({ l with
            chain := some (p.outgoing { f with masked := true, mask := l.keys l.drawn }).1
            closeSent := f.opcode = .close
            drawn := l.drawn + 1 },
          match (p.outgoing { f with masked := true, mask := l.keys l.drawn }).2 with
          | .error e => .error (.extension e)
          | .ok g => (g.encode l.inUse).mapError .codec) := by
  simp [prepareAlone, h, hc]

/-- A single frame is written down or refused, and the egress is empty behind it. -/
theorem writeDown_single (inUse : ReservedBits) (f : Frame) :
    writeDown inUse [] [f] = ([], f.encode inUse) := by
  unfold writeDown Frame.encode
  split
  · next h => simp [h, Except.map]
  · next h => simp [h, Except.map, writeDown]

theorem prepare_eq_prepareAlone {l : Link ε} (he : l.egress = []) (f : Frame) :
    l.prepare f = l.prepareAlone f := by
  unfold prepare prepareAlone
  split
  · rfl
  · rcases l.chain with - | p
    · rfl
    · dsimp only
      rcases (p.outgoing { f with masked := true, mask := l.keys l.drawn }).2 with e | g
      · rfl
      · dsimp only
        rw [he, List.nil_append, writeDown_single]
        rcases g.encode l.inUse with e | octets <;> rfl

theorem prepareAlone_with (l : Link ε) (f : Frame) (log : List Event)
    (onWrite : List (List Outgoing)) (pending : List Bytes) (writing : Bool) :
    prepareAlone { l with log, onWrite, pending, writing } f
      = ({ (l.prepareAlone f).1 with log, onWrite, pending, writing },
        (l.prepareAlone f).2) := by
  unfold prepareAlone
  dsimp only
  split
  · rfl
  · split <;> rfl

/-- No field changes but the extensions, `closeSent` and the number of masks. -/
theorem prepareAlone_frame (l : Link ε) (f : Frame) :
    ∃ chain closeSent drawn,
      (l.prepareAlone f).1 = { l with chain, closeSent, drawn } := by
  unfold prepareAlone
  split
  · exact ⟨_, _, _, rfl⟩
  · split <;> exact ⟨_, _, _, rfl⟩

@[simp] theorem log_prepareAlone (l : Link ε) (f : Frame) :
    (l.prepareAlone f).1.log = l.log := by
  obtain ⟨_, _, _, h⟩ := prepareAlone_frame l f
  rw [h]

@[simp] theorem onWrite_prepareAlone (l : Link ε) (f : Frame) :
    (l.prepareAlone f).1.onWrite = l.onWrite := by
  obtain ⟨_, _, _, h⟩ := prepareAlone_frame l f
  rw [h]

@[simp] theorem pending_prepareAlone (l : Link ε) (f : Frame) :
    (l.prepareAlone f).1.pending = l.pending := by
  obtain ⟨_, _, _, h⟩ := prepareAlone_frame l f
  rw [h]

@[simp] theorem writing_prepareAlone (l : Link ε) (f : Frame) :
    (l.prepareAlone f).1.writing = l.writing := by
  obtain ⟨_, _, _, h⟩ := prepareAlone_frame l f
  rw [h]

@[simp] theorem egress_prepareAlone (l : Link ε) (f : Frame) :
    (l.prepareAlone f).1.egress = l.egress := by
  obtain ⟨_, _, _, h⟩ := prepareAlone_frame l f
  rw [h]

@[simp] theorem inUse_prepareAlone (l : Link ε) (f : Frame) :
    (l.prepareAlone f).1.inUse = l.inUse := by
  obtain ⟨_, _, _, h⟩ := prepareAlone_frame l f
  rw [h]

/-- What is accepted is the written form of one frame. -/
theorem prepareAlone_ok {l : Link ε} {f : Frame} {octets : Bytes}
    (h : (l.prepareAlone f).2 = .ok octets) :
    ∃ g : Frame, g.encode l.inUse = .ok octets := by
  unfold prepareAlone at h
  split at h
  · cases h
  · split at h
    · cases h
    · next p _ =>
      dsimp only at h
      split at h
      · cases h
      · next g _ =>
        rcases hg : g.encode l.inUse with e | octets'
        · rw [hg] at h; cases h
        · rw [hg] at h; cases h
          exact ⟨g, hg⟩

/-- What is written down is the whole frame. -/
theorem wire_of_encode {inUse : ReservedBits} {f : Frame} {octets : Bytes}
    (h : f.encode inUse = .ok octets) : octets = f.wire := by
  unfold Frame.encode Frame.append at h
  split at h
  next heq =>
    split at heq
    · obtain ⟨-, rfl⟩ := Prod.mk.inj heq
      cases h
    · obtain ⟨rfl, rfl⟩ := Prod.mk.inj heq
      cases h
      rfl

theorem encode_ne_nil {inUse : ReservedBits} {f : Frame} {octets : Bytes}
    (h : f.encode inUse = .ok octets) : octets ≠ [] := by
  rw [wire_of_encode h]
  simp [Frame.wire]

/-- A frame is refused, or its octets join the queue. -/
theorem accept_cases {l : Link ε} (he : l.egress = []) (f : Frame) :
    (∃ e, (l.prepareAlone f).2 = .error e
        ∧ l.accept f = ((l.prepareAlone f).1, .error e))
      ∨ ∃ octets, (l.prepareAlone f).2 = .ok octets
        ∧ l.accept f
          = ({ (l.prepareAlone f).1 with
                log := .accept f octets :: l.log, pending := l.pending ++ [octets] }, .ok ()) := by
  have hlog := log_prepareAlone l f
  have hpending := pending_prepareAlone l f
  unfold accept
  rw [prepare_eq_prepareAlone he]
  rcases h : l.prepareAlone f with ⟨l', e | octets⟩
  · exact .inl ⟨e, rfl, rfl⟩
  · obtain ⟨g, hg⟩ := prepareAlone_ok (show (l.prepareAlone f).2 = .ok octets by rw [h])
    have hne : octets.isEmpty = false := by simpa using encode_ne_nil hg
    rw [h] at hlog hpending
    dsimp only at hlog hpending
    exact .inr ⟨octets, rfl, by simp [record, hne, hlog, hpending]⟩

/-! ### Attempts to send -/

/-- What comes of something that an application sends, before it is written: the octets,
or why not. -/
def attempt (l : Link ε) (o : Outgoing) : Link ε × Except ChannelError Bytes :=
  match o.toFrame with
  | .error e => (l, .error e)
  | .ok f => l.prepareAlone f

/-- What comes of several attempts, one after the other. -/
def attempts (l : Link ε) : List Outgoing → Link ε × List (Except ChannelError Bytes)
  | [] => (l, [])
  | o :: os =>
    let (l, r) := l.attempt o
    let (l, rs) := l.attempts os
    (l, r :: rs)

theorem attempts_append (l : Link ε) (front back : List Outgoing) :
    l.attempts (front ++ back)
      = (((l.attempts front).1.attempts back).1,
          (l.attempts front).2 ++ ((l.attempts front).1.attempts back).2) := by
  induction front generalizing l with
  | nil => rfl
  | cons o os ih => simp [attempts, ih]

theorem attempt_with (l : Link ε) (o : Outgoing) (log : List Event)
    (onWrite : List (List Outgoing)) (pending : List Bytes) (writing : Bool) :
    attempt { l with log, onWrite, pending, writing } o
      = ({ (l.attempt o).1 with log, onWrite, pending, writing }, (l.attempt o).2) := by
  unfold attempt
  split
  · rfl
  · exact prepareAlone_with ..

theorem attempts_with (l : Link ε) (os : List Outgoing) (log : List Event)
    (onWrite : List (List Outgoing)) (pending : List Bytes) (writing : Bool) :
    attempts { l with log, onWrite, pending, writing } os
      = ({ (l.attempts os).1 with log, onWrite, pending, writing }, (l.attempts os).2) := by
  induction os generalizing l with
  | nil => rfl
  | cons o os ih => simp only [attempts, attempt_with, ih]

@[simp] theorem onWrite_attempts (l : Link ε) (os : List Outgoing) :
    (l.attempts os).1.onWrite = l.onWrite :=
  congrArg (·.1.onWrite) (attempts_with l os l.log l.onWrite l.pending l.writing)

@[simp] theorem pending_attempts (l : Link ε) (os : List Outgoing) :
    (l.attempts os).1.pending = l.pending :=
  congrArg (·.1.pending) (attempts_with l os l.log l.onWrite l.pending l.writing)

@[simp] theorem writing_attempts (l : Link ε) (os : List Outgoing) :
    (l.attempts os).1.writing = l.writing :=
  congrArg (·.1.writing) (attempts_with l os l.log l.onWrite l.pending l.writing)

@[simp] theorem egress_attempt (l : Link ε) (o : Outgoing) :
    (l.attempt o).1.egress = l.egress := by
  unfold attempt
  split
  · rfl
  · exact egress_prepareAlone ..

@[simp] theorem egress_attempts (l : Link ε) (os : List Outgoing) :
    (l.attempts os).1.egress = l.egress := by
  induction os generalizing l with
  | nil => rfl
  | cons o os ih => exact (ih _).trans (egress_attempt l o)

@[simp] theorem inUse_attempt (l : Link ε) (o : Outgoing) :
    (l.attempt o).1.inUse = l.inUse := by
  unfold attempt
  split
  · rfl
  · exact inUse_prepareAlone ..

/-- Each attempt that succeeds gives one frame in its written form. -/
theorem encode_of_mem_attempts {l : Link ε} {os : List Outgoing} {octets : Bytes}
    (h : .ok octets ∈ (l.attempts os).2) : ∃ f : Frame, f.encode l.inUse = .ok octets := by
  induction os generalizing l with
  | nil => cases h
  | cons o os ih =>
    rcases List.mem_cons.1 h with h | h
    · split at h
      · cases h
      · exact prepareAlone_ok h.symm
    · rw [← inUse_attempt l o]
      exact ih h

end WebSocket.Link
