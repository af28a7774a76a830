/-
WebSocket/Proofs/Flate/Flushes.lean

What is asked of a compressor, and what it comes to in the loop that calls it.

Design.  The loop of `deflateFrom` is the extension's own, so what is asked of a compressor is said
of single calls: they succeed, and they do something as long as there is input (`IsSteady`).  Then
the loop comes to its end with all input taken, whatever room its calls had
(`exists_deflate_eq`).  What a message looks like when it is written flush by flush, and that it
can be read flush by flush, is said behind that (`SyncFlushes`).
-/
import Mathlib.Data.List.Induction
import WebSocket.Flate.Flush
import WebSocket.Proofs.Flate.Inflation

namespace WebSocket.Flate

variable {κ : Type} [Compressor κ]

/-! ### The loop -/

section

variable {c : κ} {input output : Bytes} {capacity size : Nat}

/-- What becomes of a call that succeeds, whatever the compressor. -/
theorem deflateFrom_of_advance
    (hsize : reserve capacity output.length (input.length + 64) = size)
    {a : Advance κ input (size - output.length)}
    (h : Compressor.advance c input (size - output.length) = .ok a) :
    deflateFrom c input output capacity
      = if a.consumed = input.length
            ∧ (output.length + a.output.length < size ∨ (a.consumed = 0 ∧ a.output = [])) then
          (a.state, .ok (output ++ a.output))
        else if a.consumed = 0 ∧ a.output = [] then (a.state, .error .noProgress)
        else deflateFrom a.state (input.drop a.consumed) (output ++ a.output) size := by
  subst hsize
  rw [deflateFrom]
  dsimp only
  split
  · next herror => rw [h] at herror; cases herror
  · next a' hok =>
    obtain rfl : a = a' := Except.ok.inj (h.symm.trans hok)
    rfl

/-- Each call has room for more than a marker. -/
theorem markerRoom_lt (hsize : reserve capacity output.length (input.length + 64) = size) :
    markerRoom < size - output.length := by
  have hle := le_reserve capacity output.length (input.length + 64)
  unfold markerRoom
  omega

end

/-! ### Compressors that go on -/

variable (κ) in
/-- What a compressor for a window of this size can be after any calls, all of them with room for
more than a marker. -/
inductive Reached (windowBits : Nat) : κ → Prop
  | fresh : Reached windowBits (Compressor.fresh windowBits)
  | call {c : κ} {input : Bytes} {room : Nat} {a : Advance κ input room}
      (hc : Reached windowBits c) (hroom : markerRoom < room)
      (ha : Compressor.advance c input room = .ok a) : Reached windowBits a.state

variable (κ) in
/-- No such call fails, and with input it does something. -/
def IsSteady (windowBits : Nat) : Prop :=
  ∀ ⦃c : κ⦄, Reached κ windowBits c → ∀ (input : Bytes) ⦃room : Nat⦄, markerRoom < room →
    ∃ a : Advance κ input room, Compressor.advance c input room = .ok a
      ∧ (input ≠ [] → 0 < a.consumed ∨ a.output ≠ [])

variable {windowBits : Nat}

/-- The loop comes to its end with all input taken. -/
theorem exists_deflateFrom_eq (h : IsSteady κ windowBits) {c : κ} (hc : Reached κ windowBits c)
    (input output : Bytes) (capacity : Nat) :
    ∃ c' flushed, deflateFrom c input output capacity = (c', .ok flushed)
      ∧ Reached κ windowBits c' := by
  induction c, input, output, capacity using deflateFrom.induct with
  | case1 c input output capacity size c' herror =>
    obtain ⟨a, ha, -⟩ := h hc input (markerRoom_lt rfl)
    rw [ha] at herror
    cases herror
  | case2 c input output capacity size a ha total hdone =>
    refine ⟨a.state, output ++ a.output, ?_, .call hc (markerRoom_lt rfl) ha⟩
    rw [deflateFrom_of_advance rfl ha, if_pos hdone]
  | case3 c input output capacity size a ha total hdone hstalled =>
    -- There is input left, as otherwise the loop would be done.
    have hinput : input ≠ [] := by
      rintro rfl
      exact hdone ⟨hstalled.1, .inr hstalled⟩
    obtain ⟨a', ha', hprogress⟩ := h hc input (markerRoom_lt rfl)
    obtain rfl : a' = a := Except.ok.inj (ha'.symm.trans ha)
    rcases hprogress hinput with hconsumed | houtput
    · exact absurd hstalled.1 (Nat.ne_of_gt hconsumed)
    · exact absurd hstalled.2 houtput
  | case4 c input output capacity size a ha total hdone hstalled ih =>
    obtain ⟨c', flushed, hrest, hc'⟩ := ih (.call hc (markerRoom_lt rfl) ha)
    refine ⟨c', flushed, ?_, hc'⟩
    rw [deflateFrom_of_advance rfl ha, if_neg hdone, if_neg hstalled, hrest]

theorem exists_deflate_eq (h : IsSteady κ windowBits) {c : κ} (hc : Reached κ windowBits c)
    (input : Bytes) :
    ∃ c' flushed, deflate c input = (c', .ok flushed) ∧ Reached κ windowBits c' :=
  exists_deflateFrom_eq h hc input [] _

/-! ### Flushes -/

variable (κ)

/-- What was written for a part, if anything. -/
def flushedOf : Except DeflateError Bytes → Bytes
  | .ok flushed => flushed
  | .error _ => []

/-- A compressor that has taken these parts of a message, and all that it has written. -/
def flushes (windowBits : Nat) (parts : List Bytes) : κ × Bytes :=
  parts.foldl (fun s part => ((deflate s.1 part).1, s.2 ++ flushedOf (deflate s.1 part).2))
    (Compressor.fresh windowBits, [])

theorem flushes_concat (windowBits : Nat) (front : List Bytes) (part : Bytes) :
    flushes κ windowBits (front ++ [part])
      = ((deflate (flushes κ windowBits front).1 part).1,
        (flushes κ windowBits front).2
          ++ flushedOf (deflate (flushes κ windowBits front).1 part).2) :=
  List.foldl_append

variable {κ} in
theorem reached_flushes (h : IsSteady κ windowBits) (parts : List Bytes) :
    Reached κ windowBits (flushes κ windowBits parts).1 := by
  induction parts using List.reverseRecOn with
  | nil => exact .fresh
  | append_singleton front part ih =>
    obtain ⟨c', flushed, hflush, hc'⟩ := exists_deflate_eq h ih part
    rw [flushes_concat, hflush]
    exact hc'

/-- The calls go on, and the message can be read up to each flush: what was written so far inflates
to exactly the parts that were given so far, with a window that is no larger.  A flush ends with
the marker, or it writes nothing, as there is nothing new, and the reader is between two
blocks. -/
def SyncFlushes (windowBits : Nat) (parts : List Bytes) : Prop :=
  IsSteady κ windowBits ∧ ∀ front part, front ++ [part] <+: parts →
    let written := flushes κ windowBits front
    ∀ flushed, (deflate written.1 part).2 = .ok flushed →
      ∃ d, ({ windowBits } : Inflater).Yields (written.2 ++ flushed) (front.flatten ++ part) d
        ∧ (flushMarker <:+ flushed ∨ flushed = [] ∧ d.BetweenBlocks)

end WebSocket.Flate
