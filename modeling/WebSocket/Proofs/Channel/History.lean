/-
WebSocket/Proofs/Channel/History.lean

Invariants of a link and of what has happened since some moment.

Most invariants of the sending half tie a part of the log to the fields of the link, and only
the frames that are accepted matter to them.  `Kept` says what is to be shown of such an
invariant, and that is all there is to show: then it holds at each moment of sending
(`Kept.sending`) and between all that a channel does (`Kept.reaches`).
-/
import WebSocket.Proofs.Channel.Log
import WebSocket.Proofs.Channel.SendOrder

namespace WebSocket

theorem Event.accepted?_of_isSendNote {e : Event} (h : e.isSendNote) : e.accepted? = none := by
  cases e <;> first | rfl | cases h

namespace Link

variable {ε : Type} [Extension ε]

/-- To this property of what has happened and of the link that was left, it matters which frames
are accepted and what becomes of the flag, the masks and the egress, and nothing else. -/
structure Kept (P : List Event → Link ε → Prop) : Prop where
  accept {E : List Event} {l : Link ε} (h : P E l) (f : Frame) :
    ∃ E', (l.accept f).1.events = l.events ++ E' ∧ P (E ++ E') (l.accept f).1
  note {E : List Event} {l : Link ε} (h : P E l) {e : Event} (he : e.accepted? = none) :
    P (E ++ [e]) (l.record e)
  aside {E : List Event} {l : Link ε} (h : P E l) {chain : Option (Pipeline ε)}
    (hchain : chain.isSome = l.chain.isSome) (onWrite : List (List Outgoing))
    (pending : List Bytes) (writing closed : Bool) :
    P E { l with chain, onWrite, pending, writing, closed }

namespace Kept

variable {P : List Event → Link ε → Prop} {E : List Event} {l l' : Link ε}

omit [Extension ε] in
/-- What happens in two parts. -/
theorem extend {l₁ l₂ : Link ε} {E₁ : List Event} (hE₁ : l₁.events = l.events ++ E₁)
    (h : ∃ E₂, l₂.events = l₁.events ++ E₂ ∧ P (E ++ E₁ ++ E₂) l₂) :
    ∃ E', l₂.events = l.events ++ E' ∧ P (E ++ E') l₂ := by
  obtain ⟨E₂, hE₂, h₂⟩ := h
  refine ⟨E₁ ++ E₂, by rw [hE₂, hE₁, List.append_assoc], ?_⟩
  rw [← List.append_assoc]
  exact h₂

/-- At each moment of sending. -/
theorem sending (hP : Kept P) (h : P E l) (hl : l.Sending l') :
    ∃ E', l'.events = l.events ++ E' ∧ P (E ++ E') l' := by
  induction hl with
  | refl => exact ⟨[], (List.append_nil _).symm, by rwa [List.append_nil]⟩
  | accept _ f ih =>
    obtain ⟨E₁, hE₁, h₁⟩ := ih
    exact extend hE₁ (hP.accept h₁ f)
  | @note l' _ e he ih =>
    obtain ⟨E₁, hE₁, h₁⟩ := ih
    exact extend hE₁ ⟨[e], events_record l' e, hP.note h₁ (Event.accepted?_of_isSendNote he)⟩
  | queue _ onWrite pending writing ih =>
    obtain ⟨E₁, hE₁, h₁⟩ := ih
    exact ⟨E₁, hE₁, hP.aside h₁ rfl onWrite pending writing _⟩

/-- Between all that a channel does. -/
theorem reaches (hP : Kept P) (h : P E l) (hl : l.Reaches l') :
    ∃ E', l'.events = l.events ++ E' ∧ P (E ++ E') l' := by
  induction hl with
  | refl => exact ⟨[], (List.append_nil _).symm, by rwa [List.append_nil]⟩
  | @send l' _ f ih =>
    obtain ⟨E₁, hE₁, h₁⟩ := ih
    exact extend hE₁ (hP.sending h₁ (sending_send l' f))
  | @incoming l' _ f ih =>
    obtain ⟨E₁, hE₁, h₁⟩ := ih
    obtain ⟨chain, heq, hchain⟩ := exists_incoming_eq l' f
    rw [heq]
    exact ⟨E₁, hE₁, hP.aside h₁ hchain _ _ _ _⟩
  | close _ ih =>
    obtain ⟨E₁, hE₁, h₁⟩ := ih
    exact ⟨E₁, hE₁, hP.aside h₁ rfl _ _ _ true⟩
  | @note l' _ e he ih =>
    obtain ⟨E₁, hE₁, h₁⟩ := ih
    exact extend hE₁ ⟨[e], events_record l' e, hP.note h₁ (Event.not_sent_of_isNote he).2⟩
  | onWrite _ nested ih =>
    obtain ⟨E₁, hE₁, h₁⟩ := ih
    exact ⟨E₁, hE₁, hP.aside h₁ rfl nested _ _ _⟩

end Kept

end Link

end WebSocket
