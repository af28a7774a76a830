/-
WebSocket/Proofs/Frame/Room.lean

Where the program has room for all that it reads.

`Decoder.drain` takes it for granted that the buffer can hold any payload, and
`Decoder.drainWithin` does not.  Only the last call of a reading waits, so the program stops
exactly if the payload that it waits for in the end does not fit (`drainWithin_eq`).

A length is checked against the limit before the decoder goes on with it.  So a decoder whose
limit fits never has a length that does not (`Fits`), whatever it is given, and all that is said
of `drain` is said of the program (`drainWithin_of_fits`).
-/
import WebSocket.Proofs.Frame.Pieces

namespace WebSocket.Decoder

variable {capacity : Nat} {d : Decoder}

/-! ### Calls -/

theorem call_of_wanted_le {input : Bytes} (h : (d.decode input).decoder.wanted ≤ capacity) :
    d.call capacity input = some (d.decode input) :=
  if_pos h

theorem call_of_lt_wanted {input : Bytes} (h : capacity < (d.decode input).decoder.wanted) :
    d.call capacity input = none :=
  if_neg (Nat.not_le.2 h)

/-- A call that does not wait wants nothing. -/
theorem wanted_le_of_result {input : Bytes} (h : (d.decode input).result ≠ .ok none) :
    (d.decode input).decoder.wanted ≤ capacity := by
  have hstage : (d.decode input).decoder.stage = .failed
      ∨ (d.decode input).decoder.stage = .start := by
    rcases hr : (d.decode input).result with e | - | f
    · exact .inl (failed_decode hr)
    · exact absurd hr h
    · exact .inr (start_decode hr)
  unfold wanted
  rcases hstage with hs | hs <;> rw [hs] <;> exact Nat.zero_le _

theorem drainWithin_of_stop {input : Bytes} (h : d.call capacity input = none) :
    d.drainWithin capacity input = none := by
  rw [drainWithin]
  split
  · rfl
  all_goals
    next hcall => rw [h] at hcall; cases hcall

theorem drainWithin_of_call {input : Bytes} {r : Decoded} (h : d.call capacity input = some r) :
    d.drainWithin capacity input = match r.result with
      | .ok (some f) => (r.decoder.drainWithin capacity r.rest).map
        fun s => { s with frames := f :: s.frames }
      | .ok none => some ⟨r.decoder, r.rest, [], none⟩
      | .error e => some ⟨r.decoder, r.rest, [], some e⟩ := by
  rw [drainWithin]
  split <;> rename_i hcall <;> rw [h] at hcall <;> cases hcall <;> rfl

/-- **The program stops for the last payload only.**  Reading in a buffer of any capacity comes to
what it comes to without a bound, unless the payload that is waited for in the end does not
fit. -/
theorem drainWithin_eq (capacity : Nat) (d : Decoder) (input : Bytes) :
    d.drainWithin capacity input
      = if (d.drain input).decoder.wanted ≤ capacity then some (d.drain input) else none := by
  induction d, input using drain_induction with
  | wait d input h =>
    rw [drain_of_wait h]
    by_cases hle : (d.decode input).decoder.wanted ≤ capacity
    · rw [drainWithin_of_call (call_of_wanted_le hle), if_pos hle, h]
    · rw [drainWithin_of_stop (call_of_lt_wanted (Nat.not_le.1 hle)), if_neg hle]
  | error d input e h =>
    have hwanted : (d.decode input).decoder.wanted ≤ capacity :=
      wanted_le_of_result (by rw [h]; nofun)
    rw [drain_of_error h, drainWithin_of_call (call_of_wanted_le hwanted), if_pos hwanted, h]
  | frame d input f h ih =>
    have hwanted : (d.decode input).decoder.wanted ≤ capacity :=
      wanted_le_of_result (by rw [h]; nofun)
    -- Behind a frame nothing is wanted, so it is what follows that decides.
    rw [drain_of_frame h, drainWithin_of_call (call_of_wanted_le hwanted), h]
    dsimp only
    rw [ih]
    split <;> rfl

/-! ### Limits that fit -/

/-- The length of the payload that comes next, once it is known and has been checked. -/
def Stage.length? : Stage → Option Nat
  | mask _ n | payload _ n => some n
  | start | length _ _ | failed => none

/-- All payloads that the decoder goes on with fit. -/
structure Fits (d : Decoder) (capacity : Nat) : Prop where
  limit : d.limit.toNat ≤ capacity
  length : ∀ n ∈ d.stage.length?, n ≤ capacity

theorem Fits.wanted_le (h : d.Fits capacity) : d.wanted ≤ capacity := by
  unfold wanted
  split
  · next hs => exact h.length _ (by rw [hs]; rfl)
  · exact Nat.zero_le _

/-- The length of a payload is checked on the way to it, and nowhere else. -/
theorem Passes.length_le {stage stage' : Stage} {input input' : Bytes}
    (h : d.Passes stage input stage' input') (hlimit : d.limit.toNat ≤ capacity)
    (hd : ∀ n ∈ stage.length?, n ≤ capacity) : ∀ n ∈ stage'.length?, n ≤ capacity := by
  cases h with
  | lead => nofun
  | length _ _ _ hle =>
    rintro _ ⟨⟩
    exact Nat.le_trans hle hlimit
  | unmasked => exact hd
  | masked => exact hd

theorem Comes.fits {stage : Stage} {input : Bytes} {r : Decoded} (h : d.Comes stage input r)
    (hlimit : d.limit.toNat ≤ capacity) (hd : ∀ n ∈ stage.length?, n ≤ capacity) :
    r.decoder.Fits capacity := by
  induction h with
  | waits stage input => exact ⟨hlimit, hd⟩
  | fails => exact ⟨hlimit, nofun⟩
  | gives => exact ⟨hlimit, nofun⟩
  | passes h _ ih => exact ih (h.length_le hlimit hd)

theorem Fits.decode (h : d.Fits capacity) (input : Bytes) :
    (d.decode input).decoder.Fits capacity :=
  (d.comes_decode input).fits h.limit h.length

theorem Fits.drain (h : d.Fits capacity) (input : Bytes) :
    (d.drain input).decoder.Fits capacity := by
  induction d, input using drain_induction with
  | wait d input hd =>
    rw [drain_of_wait hd]
    exact h.decode input
  | error d input e hd =>
    rw [drain_of_error hd]
    exact h.decode input
  | frame d input f hd ih =>
    rw [drain_of_frame hd]
    exact ih (h.decode input)

/-- **A decoder whose limit fits never stops the program.**  It reads as it does without a bound,
and so it does from there on. -/
theorem drainWithin_of_fits (h : d.Fits capacity) (input : Bytes) :
    d.drainWithin capacity input = some (d.drain input)
      ∧ (d.drain input).decoder.Fits capacity :=
  ⟨(drainWithin_eq capacity d input).trans (if_pos (h.drain input).wanted_le), h.drain input⟩

/-- The limit that a decoder begins with fits into any buffer. -/
example : ({} : Decoder).Fits maxBuffer :=
  ⟨by decide, nofun⟩

end WebSocket.Decoder
