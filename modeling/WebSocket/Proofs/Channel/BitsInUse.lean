/-
WebSocket/Proofs/Channel/BitsInUse.lean

Frames that are sent carry only reserved bits that the extensions have declared.

The bits in use on either side of a pipeline are those that were in use before and those that
its extensions declare (`mem_claim_iff`), and nothing that happens to a link changes them
(`Reaches.inUse`).  A frame that is sent is checked when it has left the extensions
(`leaving?`), and it is refused for a reserved bit exactly if it has one there that is not in
use (`send_eq_reservedBit_iff`).  A frame that is refused is not written, neither then nor later,
as no trace of it is left but in the extensions (`send_of_error`).
-/
import WebSocket.Proofs.Channel.Refusal
import WebSocket.Proofs.Channel.SendOrder
import WebSocket.Proofs.Frame.ReservedBits

namespace WebSocket

/-! ### Bits that are declared -/

namespace Extension

variable {ε : Type} [Extension ε]

/-- One of the extensions declares the bit with this number. -/
def Declared (extensions : List ε) (n : Nat) : Prop :=
  ∃ e ∈ extensions, n ∈ reservedBits e

instance (extensions : List ε) (n : Nat) : Decidable (Declared extensions n) :=
  inferInstanceAs (Decidable (∃ e ∈ extensions, n ∈ reservedBits e))

/-- The bits have one that is not declared. -/
def HasUndeclared (extensions : List ε) (bits : ReservedBits) : Prop :=
  ∃ n ∈ bits, ¬Declared extensions n

end Extension

open Extension

namespace Pipeline

variable {ε : Type} [Extension ε]

/-- All bits that are declared come into use, and no others. -/
theorem mem_claim_iff {inUse : ReservedBits} {extensions : List ε} {n : Nat} :
    n ∈ claim inUse extensions ↔ n ∈ inUse ∨ Declared extensions n := by
  unfold claim
  induction extensions generalizing inUse with
  | nil => simp [Declared]
  | cons e es ih =>
    rw [List.foldl_cons, ih, ReservedBits.mem_union, or_assoc]
    simp [Declared]

/-- Where none was in use before, those in use are just those declared. -/
theorem mem_claim_empty_iff {extensions : List ε} {n : Nat} :
    n ∈ claim {} extensions ↔ Declared extensions n :=
  mem_claim_iff.trans (or_iff_right (ReservedBits.not_mem_empty n))

theorem not_subset_claim_iff {extensions : List ε} {bits : ReservedBits} :
    ¬bits ⊆ claim {} extensions ↔ HasUndeclared extensions bits := by
  show (¬∀ n, n ∈ bits → n ∈ claim {} extensions) ↔ _
  simp only [mem_claim_empty_iff, Classical.not_forall, exists_prop, HasUndeclared]

end Pipeline

/-- The only thing that is checked when a frame is written down. -/
theorem Frame.encode_eq_error_iff {inUse : ReservedBits} {f : Frame} {e : FrameError} :
    f.encode inUse = .error e
      ↔ ∃ n, (f.rsv.diff inUse).lowest? = some n ∧ e = .reservedBit n := by
  unfold encode append
  rcases (f.rsv.diff inUse).lowest? with - | n
  · exact ⟨nofun, nofun⟩
  · constructor
    · intro h
      cases h
      exact ⟨n, rfl, rfl⟩
    · rintro ⟨m, hm, rfl⟩
      cases hm
      rfl

namespace Link

variable {ε : Type} [Extension ε]

/-- The frame that leaves the extensions when a frame is sent, if it comes that far. -/
def leaving? (l : Link ε) (f : Frame) : Option Frame :=
  if l.closed || l.closeSent then none
  else l.chain.bind fun p =>
    (p.outgoing { f with masked := true, mask := l.keys l.drawn }).2.toOption

/-! ### Frames that are refused -/

theorem send_snd (l : Link ε) (f : Frame) : (l.send f).2 = (l.accept f).2 := by
  unfold send
  rcases l.accept f with ⟨l', e | ⟨⟩⟩
  · rfl
  · rfl

theorem leaving?_of_some {l : Link ε} {p : Pipeline ε} (h : (l.closed || l.closeSent) = false)
    (hc : l.chain = some p) (f : Frame) :
    l.leaving? f
      = (p.outgoing { f with masked := true, mask := l.keys l.drawn }).2.toOption := by
  rw [leaving?, h, hc]
  rfl

/-- A frame is refused by the encoder for what leaves the extensions. -/
theorem prepareAlone_eq_codec_iff {l : Link ε} {f : Frame} {e : FrameError} :
    (l.prepareAlone f).2 = .error (.codec e) ↔ ∃ g ∈ l.leaving? f, g.encode l.inUse = .error e := by
  rcases h : (l.closed || l.closeSent) with - | -
  · rcases hc : l.chain with - | p
    · simp [prepareAlone_of_none h hc, leaving?, h, hc]
    · rw [prepareAlone_of_some h hc, leaving?_of_some h hc]
      dsimp only
      rcases (p.outgoing { f with masked := true, mask := l.keys l.drawn }).2 with e' | g
      · simp [Except.toOption]
      · have hencode : (g.encode l.inUse).mapError ChannelError.codec = .error (.codec e)
            ↔ g.encode l.inUse = .error e := by
          rcases g.encode l.inUse with e' | octets
          · refine ⟨fun h => ?_, fun h => ?_⟩
            · exact congrArg Except.error (ChannelError.codec.inj (Except.error.inj h))
            · rw [Except.error.inj h]
              rfl
          · exact iff_of_false (fun h => by cases h) (fun h => by cases h)
        simpa [Except.toOption] using hencode
  · simp [prepareAlone_of_closed h, leaving?, h]

/-- A frame is refused for a reserved bit if the frame that leaves the extensions has one that is
not in use, and the first of these is named. -/
theorem send_eq_reservedBit_iff {l : Link ε} (he : l.egress = []) {f : Frame} {n : Nat} :
    (l.send f).2 = .error (.codec (.reservedBit n))
      ↔ ∃ g ∈ l.leaving? f, (g.rsv.diff l.inUse).lowest? = some n := by
  have haccept : (l.accept f).2 = (l.prepareAlone f).2.map fun _ => () := by
    rcases accept_cases he f with ⟨e, hprepare, h⟩ | ⟨octets, hprepare, h⟩
    · rw [h, hprepare]
      rfl
    · rw [h, hprepare]
      rfl
  have hprepare : (l.send f).2 = .error (.codec (.reservedBit n))
      ↔ (l.prepareAlone f).2 = .error (.codec (.reservedBit n)) := by
    rw [send_snd, haccept]
    rcases (l.prepareAlone f).2 with e | octets
    · exact ⟨fun h => congrArg Except.error (Except.error.inj h), fun h => by rw [h]; rfl⟩
    · exact ⟨nofun, nofun⟩
  simp [hprepare, prepareAlone_eq_codec_iff, Frame.encode_eq_error_iff]

/-- A frame that is refused leaves nothing behind that could be written. -/
theorem send_of_error {l : Link ε} (he : l.egress = []) {f : Frame} {e : ChannelError}
    (h : (l.send f).2 = .error e) :
    (l.send f).1.log = l.log ∧ (l.send f).1.pending = l.pending ∧ (l.send f).1.egress = [] := by
  have haccept := send_of_accept_error h
  rcases accept_cases he f with ⟨e', -, ha⟩ | ⟨octets, -, ha⟩
  · rw [haccept] at ha
    rw [(Prod.mk.inj ha).1]
    exact ⟨log_prepareAlone l f, pending_prepareAlone l f, (egress_prepareAlone l f).trans he⟩
  · rw [haccept] at ha
    cases (Prod.mk.inj ha).2

/-- What may be written stays the same, whatever a channel does. -/
theorem Reaches.inUse {l l' : Link ε} (h : l.Reaches l') : l'.inUse = l.inUse := by
  induction h with
  | refl => rfl
  | @send l' _ f ih => exact (sending_send l' f).settings.2.1.trans ih
  | @incoming l' _ f ih =>
    obtain ⟨chain, heq, -⟩ := exists_incoming_eq l' f
    rw [heq]
    exact ih
  | close _ ih => exact ih
  | note _ _ ih => exact ih
  | onWrite _ _ ih => exact ih

/-- At any moment of a channel whose extensions have brought their bits into use, a frame is
refused for a reserved bit exactly if it leaves the extensions with one that none of them
declares.  The first such bit is named, and nothing is left that could be written. -/
theorem refused_iff_hasUndeclared {l between moment : Link ε} {extensions : List ε} (hl : l.Idle)
    (hinUse : l.inUse = Pipeline.claim {} extensions) (hreach : l.Reaches between)
    (hsend : between.Sending moment) (f : Frame) :
    ((∃ n, (moment.send f).2 = .error (.codec (.reservedBit n)))
        ↔ ∃ g ∈ moment.leaving? f, HasUndeclared extensions g.rsv)
      ∧ ∀ n, (moment.send f).2 = .error (.codec (.reservedBit n)) →
        (∃ g ∈ moment.leaving? f, n ∈ g.rsv ∧ ¬Declared extensions n
          ∧ ∀ m ∈ g.rsv, m < n → Declared extensions m)
        ∧ (moment.send f).1.log = moment.log ∧ (moment.send f).1.pending = moment.pending
        ∧ (moment.send f).1.egress = [] := by
  have he : moment.egress = [] := hsend.egress (hreach.writesAccepted hl).1.egress
  have hbits : moment.inUse = Pipeline.claim {} extensions :=
    (hsend.settings.2.1.trans hreach.inUse).trans hinUse
  have hmem (n : Nat) : n ∈ moment.inUse ↔ Declared extensions n := by
    rw [hbits]
    exact Pipeline.mem_claim_empty_iff
  simp only [send_eq_reservedBit_iff he]
  constructor
  · rw [exists_comm]
    refine exists_congr fun g => ?_
    rw [exists_and_left, ← Option.isSome_iff_exists, ← Option.ne_none_iff_isSome, ne_eq,
      ReservedBits.lowest?_diff_eq_none_iff, hbits, Pipeline.not_subset_claim_iff]
  · rintro n ⟨g, hg, hn⟩
    refine ⟨⟨g, hg, ?_⟩, send_of_error he ((send_eq_reservedBit_iff he).2 ⟨g, hg, hn⟩)⟩
    obtain ⟨hn, hnot, hlow⟩ := ReservedBits.lowest?_diff_eq_some_iff.1 hn
    exact ⟨hn, mt (hmem n).2 hnot, fun m hm hlt => (hmem m).1 (hlow m hlt hm)⟩

end Link

end WebSocket
