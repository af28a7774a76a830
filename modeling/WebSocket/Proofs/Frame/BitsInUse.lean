/-
WebSocket/Proofs/Frame/BitsInUse.lean

Frames that are read carry only reserved bits that are in use.

The bits of a frame are in its first octet and are checked there, so a header that has passed
this check keeps to the bits in use until its payload is complete, however many calls of the
decoder that takes.  It is kept from each stage of the decoder to the next (`Passes.rsv_subset`), and
`Decoded.Within` says so of what a call comes to.  A lead with another bit is an error
(`exists_error_of_lead`), where it is not an error for another reason already.
-/
import WebSocket.Proofs.Frame.Grammar
import WebSocket.Proofs.Frame.Pieces

namespace WebSocket.Decoder

/-- The header of the frame that a decoder is in the middle of. -/
def Stage.header? : Stage → Option Header
  | start | failed => none
  | length header _ | mask header _ | payload header _ => some header

/-- A call leaves the bits in use as they are, and keeps to them with the frame that it gives or
goes on with. -/
structure Decoded.Within (r : Decoded) (bits : ReservedBits) : Prop where
  inUse : r.decoder.inUse = bits
  stage : ∀ header ∈ r.decoder.stage.header?, header.rsv ⊆ bits
  frame : ∀ f, r.result = .ok (some f) → f.rsv ⊆ bits

/-- The one place where bits are checked. -/
theorem rsv_subset_of_parseLead {inUse : ReservedBits} {first second : UInt8} {header : Header}
    {code : Nat} (h : parseLead inUse first second = .ok (header, code)) : header.rsv ⊆ inUse := by
  have hlead := parseLead_lead_eq inUse ⟨first, second⟩
  rw [h] at hlead
  split_ifs at hlead with hreserved hcontrol
  split at hlead
  next => cases hlead
  next hlow =>
    cases hlead
    exact ReservedBits.lowest?_diff_eq_none_iff.1 hlow

theorem Passes.rsv_subset {d : Decoder} {stage stage' : Stage} {input input' : Bytes}
    (h : d.Passes stage input stage' input') (hd : ∀ header ∈ stage.header?, header.rsv ⊆ d.inUse) :
    ∀ header ∈ stage'.header?, header.rsv ⊆ d.inUse := by
  cases h with
  | lead h =>
    rintro _ ⟨⟩
    exact rsv_subset_of_parseLead h
  | length => exact hd
  | unmasked => exact hd
  | @masked header =>
    rintro _ ⟨⟩
    exact hd header rfl

theorem Comes.within {d : Decoder} {stage : Stage} {input : Bytes} {r : Decoded}
    (h : d.Comes stage input r) (hd : ∀ header ∈ stage.header?, header.rsv ⊆ d.inUse) :
    r.Within d.inUse := by
  induction h with
  | waits stage input => exact ⟨rfl, hd, nofun⟩
  | fails => exact ⟨rfl, nofun, nofun⟩
  | gives =>
    refine ⟨rfl, nofun, fun f hf => ?_⟩
    cases hf
    exact hd _ rfl
  | passes h _ ih => exact ih (h.rsv_subset hd)

/-- **All frames that are read keep to the bits in use.** -/
theorem rsv_subset_of_mem_drain {d : Decoder}
    (hd : ∀ header ∈ d.stage.header?, header.rsv ⊆ d.inUse) {input : Bytes} {f : Frame}
    (hf : f ∈ (d.drain input).frames) : f.rsv ⊆ d.inUse := by
  induction d, input using drain_induction with
  | wait d input h =>
    rw [drain_of_wait h] at hf
    cases hf
  | error d input e h =>
    rw [drain_of_error h] at hf
    cases hf
  | frame d input g h ih =>
    have hwithin := (d.comes_decode input).within hd
    rw [hwithin.inUse] at ih
    rw [drain_of_frame h] at hf
    rcases List.mem_cons.1 hf with rfl | hf
    · exact hwithin.frame f h
    · exact ih hwithin.stage hf

/-- A frame with a bit that is not in use is not read beyond its lead. -/
theorem exists_error_of_lead {d : Decoder} {l : Frame.Lead} (hd : d.stage = .start)
    (hbit : ¬l.rsv ⊆ d.inUse) (rest : Bytes) :
    ∃ e, d.drain (l.first :: l.second :: rest)
      = ⟨{ d with stage := .failed }, rest, [], some e⟩ := by
  rcases hlead : parseLead d.inUse l.first l.second with e | ⟨header, code⟩
  · have hdecode := decode_lead_error hd hlead rest
    refine ⟨e, ?_⟩
    rw [drain_of_error (e := e) (by rw [hdecode]; rfl), hdecode]
    rfl
  · have hheader := parseLead_lead_eq d.inUse l
    rw [hlead] at hheader
    split_ifs at hheader
    split at hheader
    next => cases hheader
    next hlow => exact absurd (ReservedBits.lowest?_diff_eq_none_iff.1 hlow) hbit

/-- What is read of a stream where such a frame begins are the frames in front of it. -/
theorem drain_append_lead {d : Decoder} {front : Bytes} {fs : List Frame} {l : Frame.Lead}
    (hd : d.stage = .start) (hfront : d.drain front = ⟨d, [], fs, none⟩)
    (hbit : ¬l.rsv ⊆ d.inUse) (rest : Bytes) :
    (d.drain (front ++ l.first :: l.second :: rest)).frames = fs
      ∧ (d.drain (front ++ l.first :: l.second :: rest)).error.isSome := by
  obtain ⟨e, he⟩ := exists_error_of_lead hd hbit rest
  rw [drain_append, hfront, Drained.feed, List.nil_append, he]
  exact ⟨List.append_nil fs, rfl⟩

end WebSocket.Decoder
