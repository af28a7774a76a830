/-
WebSocket/Proofs/Channel/CloseAnswers.lean

What an answer to a close frame carries, and how it is written.

An answer is empty if the peer has given no code, and otherwise it is a code of two octets.  It is
one that may be sent, with a single exception: 1015 is reserved, but is given back to a peer that
closes with it (`Close.sendable_answer_iff`).

Extensions that leave close frames alone pass the answer on as it is, so it is written with a mask
and nothing else (`Link.closes_as_sent`).
-/
import WebSocket.Proofs.Channel.Closing
import WebSocket.Proofs.Channel.PeerReads
import WebSocket.Proofs.Frame.Grammar

namespace WebSocket

namespace Close

/-- The codes that may be sent in a close frame: those with a meaning, but for the ones that are
reserved (1004, 1005, 1006 and 1015), and those for libraries and applications. -/
def MaySend (code : Nat) : Prop :=
  (1000 ≤ code ∧ code ≤ 1003) ∨ (1007 ≤ code ∧ code ≤ 1011) ∨ (3000 ≤ code ∧ code ≤ 4999)

instance (code : Nat) : Decidable (MaySend code) :=
  inferInstanceAs (Decidable (_ ∨ _ ∨ _))

/-- The payload is empty, or a code that may be sent and nothing else. -/
def Sendable (payload : Bytes) : Prop :=
  payload = [] ∨ payload.length = 2 ∧ MaySend (Bytes.toNat payload)

instance (payload : Bytes) : Decidable (Sendable payload) :=
  inferInstanceAs (Decidable (_ ∨ _ ∧ _))

/-- The code of a close frame, if there is one. -/
def code? (payload : Bytes) : Option Nat :=
  if payload.length < 2 then none else some (Bytes.toNat (payload.take 2))

/-- The code of an answer, where the peer has closed with this one. -/
def answerCode (code : Nat) : Nat :=
  if isEchoed code then code else protocolError

theorem isEchoed_iff {code : Nat} : isEchoed code ↔ MaySend code ∨ code = 1015 := by
  simp only [isEchoed, MaySend, Bool.or_eq_true, Bool.and_eq_true, decide_eq_true_eq, beq_iff_eq]
  omega

theorem maySend_answerCode_iff {code : Nat} : MaySend (answerCode code) ↔ code ≠ 1015 := by
  unfold answerCode
  split
  · next hechoed =>
    constructor
    · rintro h rfl
      revert h
      decide
    · intro hne
      exact (isEchoed_iff.1 hechoed).resolve_right hne
  · next hnot =>
    refine iff_of_true (by decide) ?_
    rintro rfl
    exact hnot rfl

theorem code?_lt {payload : Bytes} {code : Nat} (h : code? payload = some code) :
    code < Bytes.capacity 2 := by
  unfold code? at h
  split at h
  · cases h
  · next hlength =>
    cases h
    have hlt := Bytes.toNat_lt (payload.take 2)
    rwa [List.length_take, Nat.min_eq_left (Nat.not_lt.1 hlength)] at hlt

theorem answer_of_none {payload : Bytes} (h : code? payload = none) : answer payload = [] := by
  unfold code? at h
  split at h
  · next hshort => exact if_pos hshort
  · cases h

theorem answer_of_some {payload : Bytes} {code : Nat} (h : code? payload = some code) :
    answer payload = Bytes.ofNat 2 (answerCode code) := by
  unfold code? at h
  split at h
  · cases h
  · next hlength =>
    cases h
    exact if_neg hlength

theorem length_answer_le (payload : Bytes) : (answer payload).length ≤ 2 := by
  rcases h : code? payload with - | code
  · rw [answer_of_none h]
    exact Nat.zero_le 2
  · rw [answer_of_some h]
    exact Nat.le_of_eq (Bytes.length_ofNat 2 _)

theorem toNat_answer {payload : Bytes} {code : Nat} (h : code? payload = some code) :
    Bytes.toNat (answer payload) = answerCode code := by
  rw [answer_of_some h]
  refine Bytes.toNat_ofNat ?_
  unfold answerCode
  split
  · exact code?_lt h
  · decide

/-- An answer may be sent, unless the peer has closed with 1015. -/
theorem sendable_answer_iff (payload : Bytes) :
    Sendable (answer payload) ↔ code? payload ≠ some 1015 := by
  rcases h : code? payload with - | code
  · rw [answer_of_none h]
    exact iff_of_true (.inl rfl) nofun
  · have hlength : (answer payload).length = 2 := by
      rw [answer_of_some h, Bytes.length_ofNat]
    have hne : answer payload ≠ [] := List.ne_nil_of_length_eq_add_one hlength
    rw [Sendable, or_iff_right hne, toNat_answer h, maySend_answerCode_iff]
    exact (and_iff_right hlength).trans (not_congr Option.some_inj).symm

end Close

namespace Link

variable {ε : Type} [Extension ε]

/-- Extensions that leave close frames alone leave nothing but the mask to be added. -/
theorem kept_closes_as_sent (hε : Extension.LeavesCloses ε) :
    Kept fun E (l : Link ε) => l.egress = [] ∧ ∀ f octets, .accept f octets ∈ E →
      f.opcode = .close → ∃ key, octets = (f.withMask key).wire where
  accept := by
    rintro E l ⟨he, h⟩ f
    have ha := accepts_accept he f
    generalize l.accept f = r at ha
    cases ha with
    | closed | notConnected | refused =>
      refine ⟨[], (List.append_nil _).symm, he, ?_⟩
      rw [List.append_nil]
      exact h
    | @accepted p p' g octets _ _ hp hg =>
      refine ⟨[.accept f octets], events_record l _, he, fun f' octets' hmem hclose => ?_⟩
      rcases List.mem_append.1 hmem with hmem | hmem
      · exact h f' octets' hmem hclose
      · cases List.mem_singleton.1 hmem
        have hsame := Pipeline.outgoing_close hε p (f := f.withMask (l.keys l.drawn)) hclose
        obtain rfl : g = f.withMask (l.keys l.drawn) :=
          Except.ok.inj ((congrArg Prod.snd hp).symm.trans hsame)
        exact ⟨_, wire_of_encode hg⟩
  note := by
    rintro E l ⟨he, h⟩ e hnone
    refine ⟨he, fun f octets hmem => ?_⟩
    rcases List.mem_append.1 hmem with hmem | hmem
    · exact h f octets hmem
    · rw [← List.mem_singleton.1 hmem] at hnone
      cases hnone
  aside h _ _ _ _ _ _ := h

/-- So it is with all close frames that were accepted since the channel was connected. -/
theorem Fresh.closes_as_sent (hε : Extension.LeavesCloses ε) {l l' : Link ε} (h : l.Fresh)
    (hl : l.Reaches l') {E : List Event} (hE : l'.events = l.events ++ E) {f : Frame}
    {octets : Bytes} (hmem : .accept f octets ∈ E) (hclose : f.opcode = .close) :
    ∃ key, octets = (f.withMask key).wire := by
  obtain ⟨E', hE', -, hall⟩ := (kept_closes_as_sent hε).reaches (E := [])
    ⟨h.idle.egress, fun _ _ hmem => by cases hmem⟩ hl
  obtain rfl : E' = E := List.append_cancel_left (hE'.symm.trans hE)
  exact hall f octets hmem hclose

end Link

end WebSocket
