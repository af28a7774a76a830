/-
WebSocket/Proofs/Flate/CallLoop.lean

How often a decompressor is called for one part of a message.

Design.  `inflateFrom` is told by each call how much it has used, and drops that from the input.  A
decompressor may instead keep totals over all its calls, so that what was used is a difference,
and so is what is left.  `CallLoop` is the loop on such totals; it has a result only if no
difference is below zero (`Nat.psub`), and `run` counts the calls.

What carries the loop is `Sound`: the totals are within the input, and the output is within the
limit.  A turn that does not end the loop has used input or written output, so there is less
`work` to do behind it (`exists_turn_eq`).  The work at the start bounds the number of calls,
whatever the decompressor does (`inflate_within_calls`).
-/
import Mathlib.Data.Nat.PSub
import WebSocket.Proofs.Flate.Inflation

namespace WebSocket.Flate

variable {δ : Type} [Decompressor δ]

/-! ### The loop on totals -/

/-- The loop in front of a call. -/
structure CallLoop (δ : Type) where
  state : δ
  /-- The octets that the decompressor has used in all its calls. -/
  totalIn : Nat
  /-- The octets that it has written in all its calls. -/
  totalOut : Nat
  output : Bytes
  /-- The size of the buffer that the output lies in. -/
  capacity : Nat

namespace CallLoop

/-- What a turn comes to. -/
inductive Turned (δ : Type) where
  | again (next : CallLoop δ)
  | ended (result : Except InflateError (CallLoop δ))

/-- The loop behind a call with a buffer of `size` octets. -/
def behind (loop : CallLoop δ) (size : Nat) {left : Bytes} {room : Nat}
    (a : Advance δ left room) : CallLoop δ where
  state := a.state
  totalIn := loop.totalIn + a.consumed
  totalOut := loop.totalOut + a.output.length
  output := loop.output ++ a.output
  capacity := size

/-- One turn, with one call.  The total was `start` in front of the first call. -/
def turn (limit start : Nat) (input : Bytes) (loop : CallLoop δ) : Option (Turned δ) := do
  -- Each of these would be below zero if the totals went back or were ahead of the input.
  let consumed ← loop.totalIn.psub start
  let left ← input.length.psub consumed
  let size := reserve loop.capacity loop.output.length (2 * left + 64)
  let room ← size.psub loop.output.length
  match Decompressor.advance loop.state (input.drop consumed) room with
  | none => return .ended (.error .corrupt)
  | some a =>
    let next := loop.behind size a
    if limit < next.output.length then return .ended (.error (.tooLarge limit))
    let consumed' ← next.totalIn.psub start
    let stalled := next.totalOut = loop.totalOut ∧ consumed' = consumed
    if consumed' = input.length ∧ (next.output.length < size ∨ stalled) then
      return .ended (.ok next)
    if stalled then return .ended (.error .noProgress)
    return .again next

/-- Up to `calls` turns. -/
def run (limit start : Nat) (input : Bytes) : (calls : Nat) → CallLoop δ → Option (Turned δ)
  | 0, loop => some (.again loop)
  | calls + 1, loop => do
    match ← loop.turn limit start input with
    | .again next => run limit start input calls next
    | .ended result => return .ended result

/-- What the loop hands over at its end. -/
def handed (loop : CallLoop δ) : δ × Bytes :=
  (loop.state, loop.output)

/-- What `inflateFrom` makes of the input that is left. -/
def inflated (limit start : Nat) (input : Bytes) (loop : CallLoop δ) :
    Except InflateError (δ × Bytes) :=
  inflateFrom limit loop.state (input.drop (loop.totalIn - start)) loop.output loop.capacity

/-! ### One turn -/

/-- What holds in front of each call. -/
structure Sound (limit start : Nat) (input : Bytes) (loop : CallLoop δ) : Prop where
  start_le : start ≤ loop.totalIn
  totalIn_le : loop.totalIn ≤ start + input.length
  length_le : loop.output.length ≤ limit

/-- The input and the output that can still come. -/
def work (limit start : Nat) (input : Bytes) (loop : CallLoop δ) : Nat :=
  start + input.length - loop.totalIn + (limit + 1 - loop.output.length)

/-- What a turn may come to. -/
inductive Continues (limit start : Nat) (input : Bytes) (loop : CallLoop δ) : Turned δ → Prop
  | again {next : CallLoop δ} (hsound : next.Sound limit start input)
      (hwork : next.work limit start input < loop.work limit start input)
      (hnext : loop.inflated limit start input = next.inflated limit start input) :
      Continues limit start input loop (.again next)
  | failed {e : InflateError} (he : loop.inflated limit start input = .error e) :
      Continues limit start input loop (.ended (.error e))
  | done {last : CallLoop δ} (hsound : last.Sound limit start input)
      (hall : last.totalIn = start + input.length)
      (hlast : loop.inflated limit start input = .ok last.handed) :
      Continues limit start input loop (.ended (.ok last))

variable {limit start consumed size : Nat} {input : Bytes} {loop : CallLoop δ}

omit [Decompressor δ] in
/-- No difference is below zero in front of a call. -/
theorem Sound.psub_eq (h : loop.Sound limit start input) (hused : loop.totalIn - start = consumed)
    (hsize : reserve loop.capacity loop.output.length (2 * (input.drop consumed).length + 64)
      = size) :
    loop.totalIn.psub start = some consumed
      ∧ input.length.psub consumed = some (input.drop consumed).length
      ∧ size.psub loop.output.length = some (size - loop.output.length) := by
  have hle := le_reserve loop.capacity loop.output.length (2 * (input.drop consumed).length + 64)
  have hin := h.totalIn_le
  refine ⟨hused ▸ Nat.psub_eq_sub h.start_le, ?_, Nat.psub_eq_sub (by omega)⟩
  rw [List.length_drop]
  exact Nat.psub_eq_sub (by omega)

theorem turn_of_none (h : loop.Sound limit start input) (hused : loop.totalIn - start = consumed)
    (hsize : reserve loop.capacity loop.output.length (2 * (input.drop consumed).length + 64)
      = size)
    (ha : Decompressor.advance loop.state (input.drop consumed) (size - loop.output.length)
      = none) :
    loop.turn limit start input = some (.ended (.error .corrupt)) := by
  obtain ⟨hconsumed, hleft, hroom⟩ := h.psub_eq hused hsize
  simp only [turn, hconsumed, hleft, hsize, hroom, ha, Option.bind_eq_bind, Option.bind_some,
    Option.pure_def]

/-- What becomes of a call.  The totals have told how much it has used and written. -/
theorem turn_of_advance (h : loop.Sound limit start input)
    (hused : loop.totalIn - start = consumed)
    (hsize : reserve loop.capacity loop.output.length (2 * (input.drop consumed).length + 64)
      = size)
    {a : Advance δ (input.drop consumed) (size - loop.output.length)}
    (ha : Decompressor.advance loop.state (input.drop consumed) (size - loop.output.length)
      = some a) :
    loop.turn limit start input = some
      (if limit < loop.output.length + a.output.length then .ended (.error (.tooLarge limit))
        else if a.consumed = (input.drop consumed).length
            ∧ (loop.output.length + a.output.length < size
              ∨ (a.consumed = 0 ∧ a.output = [])) then .ended (.ok (loop.behind size a))
        else if a.consumed = 0 ∧ a.output = [] then .ended (.error .noProgress)
        else .again (loop.behind size a)) := by
  obtain ⟨hconsumed, hleft, hroom⟩ := h.psub_eq hused hsize
  have hin := h.totalIn_le
  have hle := a.consumed_le
  rw [List.length_drop] at hle
  have hstart := h.start_le
  have hnext : (loop.behind size a).totalIn.psub start = some (consumed + a.consumed) := by
    show (loop.totalIn + a.consumed).psub start = _
    rw [Nat.psub_eq_sub (by omega)]
    congr 1
    omega
  have hlength : (loop.behind size a).output.length = loop.output.length + a.output.length :=
    List.length_append
  have hstalled : (loop.behind size a).totalOut = loop.totalOut
      ∧ consumed + a.consumed = consumed ↔ a.consumed = 0 ∧ a.output = [] := by
    rw [← List.length_eq_zero_iff]
    show loop.totalOut + a.output.length = loop.totalOut ∧ _ ↔ _
    omega
  have hall : consumed + a.consumed = input.length
      ↔ a.consumed = (input.drop consumed).length := by
    rw [List.length_drop]
    omega
  simp only [turn, hconsumed, hleft, hsize, hroom, ha, hnext, hlength, hstalled, hall,
    Option.bind_eq_bind, Option.bind_some, Option.pure_def]
  split_ifs <;> rfl

/-- The turn comes to the same as one round of `inflateFrom`. -/
theorem exists_turn_eq (h : loop.Sound limit start input) :
    ∃ turned, loop.turn limit start input = some turned
      ∧ Continues limit start input loop turned := by
  generalize hused : loop.totalIn - start = consumed
  generalize hsize : reserve loop.capacity loop.output.length
    (2 * (input.drop consumed).length + 64) = size
  have hinflated : loop.inflated limit start input
      = inflateFrom limit loop.state (input.drop consumed) loop.output loop.capacity := by
    rw [inflated, hused]
  rcases ha : Decompressor.advance loop.state (input.drop consumed) (size - loop.output.length)
    with - | a
  · refine ⟨_, turn_of_none h hused hsize ha, .failed ?_⟩
    rw [hinflated]
    exact inflateFrom_of_none hsize ha
  · rw [inflateFrom_of_advance hsize ha] at hinflated
    refine ⟨_, turn_of_advance h hused hsize ha, ?_⟩
    have hin := h.totalIn_le
    have hstart := h.start_le
    have hle := a.consumed_le
    rw [List.length_drop] at hle
    have hsound (hlimit : ¬limit < loop.output.length + a.output.length) :
        (loop.behind size a).Sound limit start input := by
      refine ⟨?_, ?_, ?_⟩
      · show start ≤ loop.totalIn + a.consumed
        omega
      · show loop.totalIn + a.consumed ≤ start + input.length
        omega
      · show (loop.output ++ a.output).length ≤ limit
        rw [List.length_append]
        omega
    split_ifs at hinflated ⊢ with hlimit hdone hstalled
    · exact .failed hinflated
    · refine .done (hsound hlimit) ?_ hinflated
      show loop.totalIn + a.consumed = start + input.length
      rw [hdone.1, List.length_drop]
      omega
    · exact .failed hinflated
    · refine .again (hsound hlimit) ?_ ?_
      · -- It has used input or written output, and the output was within the limit.
        rw [← List.length_eq_zero_iff] at hstalled
        show start + input.length - (loop.totalIn + a.consumed)
          + (limit + 1 - (loop.output ++ a.output).length) < _
        rw [List.length_append, work]
        omega
      · rw [hinflated, inflated, List.drop_drop]
        show _ = inflateFrom limit a.state (input.drop (loop.totalIn + a.consumed - start)) _ size
        congr 2
        omega

/-! ### All turns -/

/-- As many calls as there is work are enough. -/
theorem exists_run_eq {calls : Nat} (h : loop.Sound limit start input)
    (hcalls : loop.work limit start input ≤ calls) :
    ∃ result, loop.run limit start input calls = some (.ended result)
      ∧ loop.inflated limit start input = result.map handed
      ∧ ∀ last, result = .ok last →
        last.Sound limit start input ∧ last.totalIn = start + input.length := by
  induction calls generalizing loop with
  | zero =>
    -- The output is within the limit, so there is always work for one more call.
    have hle := h.length_le
    rw [work] at hcalls
    omega
  | succ calls ih =>
    obtain ⟨turned, hturn, hcontinues⟩ := exists_turn_eq h
    rw [run, hturn]
    cases hcontinues with
    | again hsound hwork hnext =>
      rw [hnext]
      exact ih hsound (by omega)
    | failed he => exact ⟨_, rfl, he, nofun⟩
    | done hsound hall hlast =>
      refine ⟨_, rfl, hlast, ?_⟩
      rintro _ ⟨⟩
      exact ⟨hsound, hall⟩

end CallLoop

/-- **A part of a message takes a bounded number of calls.**  The decompressor is any one at all: a
call may fail, use nothing, or write nothing.  The totals that it has kept so far are arbitrary.

No more calls are made than there are octets in the input and in the limit together, and one.
No difference of totals is below zero.  The result is that of `inflate`; if it is no error, then
all input was used, and there are no more octets of output than the limit. -/
theorem inflate_within_calls (limit : Nat) (d : δ) (input : Bytes) (totalIn totalOut : Nat) :
    let loop : CallLoop δ :=
      { state := d, totalIn, totalOut, output := [], capacity := 2 * input.length }
    ∃ result, loop.run limit totalIn input (input.length + limit + 1) = some (.ended result)
      ∧ inflate limit d input = result.map CallLoop.handed
      ∧ ∀ last, result = .ok last →
        last.totalIn = totalIn + input.length ∧ last.output.length ≤ limit := by
  intro loop
  have hsound : loop.Sound limit totalIn input :=
    ⟨Nat.le_refl _, Nat.le_add_right _ _, Nat.zero_le _⟩
  have hwork : loop.work limit totalIn input = input.length + limit + 1 := by
    show totalIn + input.length - totalIn + (limit + 1 - 0) = _
    omega
  obtain ⟨result, hrun, hresult, hok⟩ := CallLoop.exists_run_eq hsound (Nat.le_of_eq hwork)
  have hinflate : loop.inflated limit totalIn input = inflate limit d input := by
    show inflateFrom limit d (input.drop (totalIn - totalIn)) [] _ = _
    rw [Nat.sub_self]
    rfl
  refine ⟨result, hrun, hinflate ▸ hresult, fun last hlast => ?_⟩
  obtain ⟨hlast, hall⟩ := hok last hlast
  exact ⟨hall, hlast.length_le⟩

end WebSocket.Flate
