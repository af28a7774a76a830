/-
WebSocket/Flate/Inflater.lean

A DEFLATE decoder that can stop anywhere.

Design.  The decoder is a machine that takes one bit at a time.  Its `Mode` says
what the bits that come next mean: a number of a fixed width (`Field`), a word of
a prefix code, or the octets of a stored block.  Whatever it has decoded but not
yet written out is `pending`.  A call (`advance`) writes out what is pending
while there is room, and only then takes the next bit.  So input is never used
before all output in front of it has been written, and between two calls the
machine holds less than an octet of bits; how the input and the room are divided
among calls can make a difference in one point only.

That point is the window.  A match may reach back as far as the octets written
in the same call, and beyond them by at most the size of the window.  The check
is made when octets are copied, not when the distance is read.
-/
import WebSocket.Flate.Format
import WebSocket.Flate.Stream

namespace WebSocket.Flate

/-! ### States -/

/-- How many words each of the codes of a block has. -/
structure WordCounts where
  literal : Nat
  distance : Nat
  forLengths : Nat
  deriving DecidableEq, Repr

/-- Numbers of a fixed width, least significant bit first. -/
inductive Field where
  /-- Whether the block is the last one, and of which kind it is. -/
  | block
  /-- The length of a stored block and the complement of it. -/
  | storedLength
  /-- The sizes of the codes of a block. -/
  | counts
  /-- A word length of the code for word lengths; `seen` are those before it,
  the last one first. -/
  | metaLength (counts : WordCounts) (seen : List Nat)
  /-- How often `value`, or the length before it, is repeated. -/
  | repetition (counts : WordCounts) (code : CodeTree) (seen : List Nat) (value : Option Nat)
      (least width : Nat)
  /-- What to add to a match length. -/
  | lengthExtra (least width : Nat)
  /-- What to add to a distance. -/
  | distanceExtra (length least width : Nat)
  deriving DecidableEq, Repr

/-- The number of bits of a field. -/
def Field.width : Field → Nat
  | block => 3
  | storedLength => 32
  | counts => 14
  | metaLength .. => 3
  | repetition _ _ _ _ _ width => width
  | lengthExtra _ width => width
  | distanceExtra _ _ width => width

/-- What a word of a prefix code is read for. -/
inductive Alphabet where
  /-- The word lengths of the codes of a block; `seen` are those before, the last
  one first. -/
  | lengths (counts : WordCounts) (code : CodeTree) (seen : List Nat)
  /-- A literal, a match length or the end of the block. -/
  | literal
  /-- The distance of a match. -/
  | distance (length : Nat)
  deriving DecidableEq, Repr

/-- What the next bits mean. -/
inductive Mode where
  /-- Bits of a number, of which `got` make up `value` so far. -/
  | field (f : Field) (got value : Nat)
  /-- Bits of a word, of which `rest` is still possible. -/
  | word (alphabet : Alphabet) (rest : CodeTree)
  /-- Octets of a stored block. -/
  | stored (left : Nat)
  /-- The last block is over. -/
  | finished
  deriving DecidableEq, Repr

/-- Decoded octets that are not yet written out. -/
inductive Emission where
  | literal (b : UInt8)
  /-- So many octets, each of them `distance` behind the one it is copied from. -/
  | copy (length distance : Nat)
  deriving DecidableEq, Repr

/-- A decoder. -/
structure Inflater where
  windowBits : Nat
  mode : Mode := .field .block 0 0
  /-- Whether the block at hand is the last one. -/
  last : Bool := false
  /-- The code for literals and match lengths of the block at hand. -/
  literals : CodeTree := .dead
  /-- The code for distances of the block at hand. -/
  distances : CodeTree := .dead
  /-- The bits of an octet that was begun. -/
  hold : List Bool := []
  pending : Option Emission := none
  /-- All that was written out. -/
  history : Array UInt8 := #[]
  deriving DecidableEq, Repr

namespace Inflater

/-! ### Taking bits -/

/-- The bits of an octet, least significant first. -/
def bitsOf (b : UInt8) : List Bool :=
  (List.range 8).map fun i => b.toNat.testBit i

/-- Expects a field. -/
def expect (d : Inflater) (f : Field) : Inflater :=
  { d with mode := .field f 0 0 }

/-- Goes on behind the end of a block.  Behind the last one the rest of the octet
at hand has no meaning. -/
def endBlock (d : Inflater) : Inflater :=
  if d.last then { d with mode := .finished, hold := [] } else d.expect .block

/-- Expects a literal, a match length or the end of the block. -/
def expectLiteral (d : Inflater) : Inflater :=
  { d with mode := .word .literal d.literals }

/-- Starts the data of a block with codes of its own, given all their word
lengths. -/
def startDynamic (d : Inflater) (counts : WordCounts) (lengths : List Nat) : Option Inflater := do
  if lengths.getD endOfBlock 0 = 0 then none
  let literals ← CodeTree.forData? (lengths.take counts.literal)
  let distances ← CodeTree.forData? (lengths.drop counts.literal)
  some ({ d with literals, distances }.expectLiteral)

/-- Expects the next word length, or starts the data if `seen` are all of them. -/
def expectLengths (d : Inflater) (counts : WordCounts) (code : CodeTree) (seen : List Nat) :
    Option Inflater :=
  let total := counts.literal + counts.distance
  if seen.length < total then some { d with mode := .word (.lengths counts code seen) code }
  else if seen.length = total then d.startDynamic counts seen.reverse
  else none

/-- Expects the next word length of the code for word lengths, or puts that code
together if `seen` are all of them. -/
def expectMetaLength (d : Inflater) (counts : WordCounts) (seen : List Nat) : Option Inflater :=
  if seen.length < counts.forLengths then some (d.expect (.metaLength counts seen))
  else do
    let given := lengthOrder.zip seen.reverse
    let lengths := (List.range lengthOrder.length).map fun n => (given.lookup n).getD 0
    let code ← CodeTree.forLengths? lengths
    d.expectLengths counts code []

/-- Expects the distance of a match of this length. -/
def expectDistance (d : Inflater) (length : Nat) : Inflater :=
  { d with mode := .word (.distance length) d.distances }

/-- Has a match written out. -/
def emitCopy (d : Inflater) (length distance : Nat) : Inflater :=
  { d.expectLiteral with pending := some (.copy length distance) }

/-- Acts on a number that is complete; `none` if it makes no sense. -/
def acceptField (d : Inflater) (f : Field) (value : Nat) : Option Inflater :=
  match f with
  | .block =>
    let d := { d with last := value % 2 == 1 }
    match value / 2 with
    | 0 => some ({ d with hold := [] }.expect .storedLength)
    | 1 => some ({ d with literals := fixedLiterals, distances := fixedDistances }.expectLiteral)
    | 2 => some (d.expect .counts)
    | _ => none
  | .storedLength =>
    let length := value % 0x10000
    if length + value / 0x10000 ≠ 0xffff then none
    else if length = 0 then some d.endBlock
    else some { d with mode := .stored length }
  | .counts =>
    let counts := ⟨value % 32 + 257, value / 32 % 32 + 1, value / 1024 + 4⟩
    if 286 < counts.literal || 30 < counts.distance then none
    else d.expectMetaLength counts []
  | .metaLength counts seen => d.expectMetaLength counts (value :: seen)
  | .repetition counts code seen repeated least _ =>
    match repeated, seen with
    | none, [] => none
    | none, length :: _ =>
      d.expectLengths counts code (List.replicate (least + value) length ++ seen)
    | some length, _ =>
      d.expectLengths counts code (List.replicate (least + value) length ++ seen)
  | .lengthExtra least _ => some (d.expectDistance (least + value))
  | .distanceExtra length least _ => some (d.emitCopy length (least + value))

/-- Acts on the symbol of a word that is complete; `none` if it has no meaning. -/
def acceptSymbol (d : Inflater) (alphabet : Alphabet) (symbol : Nat) : Option Inflater :=
  match alphabet with
  | .lengths counts code seen =>
    if symbol < 16 then d.expectLengths counts code (symbol :: seen)
    else if symbol = 16 then some (d.expect (.repetition counts code seen none 3 2))
    else if symbol = 17 then some (d.expect (.repetition counts code seen (some 0) 3 3))
    else some (d.expect (.repetition counts code seen (some 0) 11 7))
  | .literal =>
    if symbol < endOfBlock then
      some { d.expectLiteral with pending := some (.literal (UInt8.ofNat symbol)) }
    else if symbol = endOfBlock then some d.endBlock
    else match lengthTable[symbol - 257]? with
      | none => none
      | some (least, 0) => some (d.expectDistance least)
      | some (least, width) => some (d.expect (.lengthExtra least width))
  | .distance length =>
    match distanceTable[symbol]? with
    | none => none
    | some (least, 0) => some (d.emitCopy length least)
    | some (least, width) => some (d.expect (.distanceExtra length least width))

/-- Counts one octet of a stored block. -/
def takeStored (d : Inflater) (left : Nat) : Inflater :=
  if left ≤ 1 then d.endBlock else { d with mode := .stored (left - 1) }

/-- Takes one bit; `none` if the input is corrupt.  Stored octets and the end of
the stream take no bits. -/
def acceptBit (d : Inflater) (bit : Bool) : Option Inflater :=
  match d.mode with
  | .field f got value =>
    let value := if bit then value + (1 <<< got) else value
    if got + 1 < f.width then some { d with mode := .field f (got + 1) value }
    else d.acceptField f value
  | .word alphabet rest =>
    match rest.child bit with
    | .dead => none
    | .leaf symbol => d.acceptSymbol alphabet symbol
    | .node zero one => some { d with mode := .word alphabet (.node zero one) }
  | .stored _ | .finished => some d

/-! ### Bits are only used up

A transition leaves the bits at hand alone, or drops them at the end of a
block or in front of a stored one. -/

theorem hold_endBlock (d : Inflater) : d.endBlock.hold.length ≤ d.hold.length := by
  unfold endBlock
  split <;> simp [expect]

theorem hold_takeStored (d : Inflater) (left : Nat) :
    (d.takeStored left).hold.length ≤ d.hold.length := by
  unfold takeStored
  split
  · exact hold_endBlock d
  · exact Nat.le_refl _

theorem hold_startDynamic {d e : Inflater} {counts : WordCounts} {lengths : List Nat}
    (h : d.startDynamic counts lengths = some e) : e.hold = d.hold := by
  unfold startDynamic at h
  split at h
  · cases h
  · obtain ⟨l, -, h⟩ := Option.bind_eq_some_iff.1 h
    obtain ⟨r, -, h⟩ := Option.bind_eq_some_iff.1 h
    cases h
    rfl

theorem hold_expectLengths {d e : Inflater} {counts : WordCounts} {code : CodeTree}
    {seen : List Nat} (h : d.expectLengths counts code seen = some e) : e.hold = d.hold := by
  unfold expectLengths at h
  dsimp only at h
  split at h
  · cases h; rfl
  · split at h
    · exact hold_startDynamic h
    · cases h

theorem hold_expectMetaLength {d e : Inflater} {counts : WordCounts} {seen : List Nat}
    (h : d.expectMetaLength counts seen = some e) : e.hold = d.hold := by
  unfold expectMetaLength at h
  split at h
  · cases h; rfl
  · obtain ⟨code, -, h⟩ := Option.bind_eq_some_iff.1 h
    exact hold_expectLengths h

theorem hold_acceptField {d e : Inflater} {f : Field} {value : Nat}
    (h : d.acceptField f value = some e) : e.hold.length ≤ d.hold.length := by
  cases f with
  | block =>
    simp only [acceptField] at h
    split at h <;> cases h <;> simp [expect, expectLiteral]
  | storedLength =>
    simp only [acceptField] at h
    split at h
    · cases h
    · split at h
      · cases h; exact hold_endBlock d
      · cases h; exact Nat.le_refl _
  | counts =>
    simp only [acceptField] at h
    split at h
    · cases h
    · exact Nat.le_of_eq (congrArg List.length (hold_expectMetaLength h))
  | metaLength counts seen => exact Nat.le_of_eq (congrArg List.length (hold_expectMetaLength h))
  | repetition counts code seen repeated least width =>
    simp only [acceptField] at h
    split at h
    · cases h
    · exact Nat.le_of_eq (congrArg List.length (hold_expectLengths h))
    · exact Nat.le_of_eq (congrArg List.length (hold_expectLengths h))
  | lengthExtra least width => cases h; exact Nat.le_refl _
  | distanceExtra length least width => cases h; exact Nat.le_refl _

theorem hold_acceptSymbol {d e : Inflater} {alphabet : Alphabet} {symbol : Nat}
    (h : d.acceptSymbol alphabet symbol = some e) : e.hold.length ≤ d.hold.length := by
  cases alphabet with
  | lengths counts code seen =>
    simp only [acceptSymbol] at h
    split at h
    · exact Nat.le_of_eq (congrArg List.length (hold_expectLengths h))
    · repeat' split at h
      all_goals cases h; exact Nat.le_refl _
  | literal =>
    simp only [acceptSymbol] at h
    split at h
    · cases h; exact Nat.le_refl _
    · split at h
      · cases h; exact hold_endBlock d
      · split at h <;> cases h <;> exact Nat.le_refl _
  | distance length =>
    simp only [acceptSymbol] at h
    split at h <;> cases h <;> exact Nat.le_refl _

theorem hold_acceptBit {d e : Inflater} {bit : Bool} (h : d.acceptBit bit = some e) :
    e.hold.length ≤ d.hold.length := by
  unfold acceptBit at h
  split at h
  · dsimp only at h
    split at h
    · cases h; exact Nat.le_refl _
    · exact hold_acceptField h
  · split at h
    · cases h
    · exact hold_acceptSymbol h
    · cases h; exact Nat.le_refl _
  · cases h; exact Nat.le_refl _
  · cases h; exact Nat.le_refl _

/-! ### Calls -/

/-- A call under way: the decoder, the input and the room that are left, the
number of octets in front of this call that a match may reach, and the output of
this call. -/
structure Call where
  decoder : Inflater
  input : Bytes
  room : Nat
  reach : Nat
  output : Array UInt8 := #[]
  deriving DecidableEq, Repr

/-- What a call does next. -/
inductive Turn where
  /-- Nothing can be done without more input or more room; the call stays as it
  is. -/
  | blocked (c : Call)
  /-- The input is corrupt. -/
  | corrupt
  | next (c : Call)
  deriving DecidableEq, Repr

namespace Call

/-- Writes out one octet. -/
def emit (c : Call) (b : UInt8) (pending : Option Emission) : Call :=
  { c with
    decoder := { c.decoder with pending, history := c.decoder.history.push b }
    room := c.room - 1
    output := c.output.push b }

/-- Writes out one octet of what is pending, or takes one bit, or begins an
octet. -/
def turn (c : Call) : Turn :=
  match c.decoder.pending with
  | some (.literal b) => if c.room = 0 then .blocked c else .next (c.emit b none)
  | some (.copy length distance) =>
    if c.room = 0 then .blocked c
    else if c.output.size + c.reach < distance then .corrupt
    else
      let history := c.decoder.history
      let b := history.getD (history.size - distance) 0
      .next (c.emit b (if length ≤ 1 then none else some (.copy (length - 1) distance)))
  | none =>
    match c.decoder.mode with
    | .finished => .blocked c
    | .stored left =>
      match c.input with
      | [] => .blocked c
      | b :: input =>
        if c.room = 0 then .blocked c
        else .next ({ c with decoder := c.decoder.takeStored left, input }.emit b none)
    | _ =>
      match c.decoder.hold with
      | bit :: hold =>
        match { c.decoder with hold }.acceptBit bit with
        | none => .corrupt
        | some decoder => .next { c with decoder }
      | [] =>
        match c.input with
        | [] => .blocked c
        | b :: input => .next { c with decoder := { c.decoder with hold := bitsOf b }, input }

/-- The work that a call still has. -/
def work (c : Call) : Nat :=
  9 * c.input.length + c.decoder.hold.length + c.room

/-- Each turn lessens the work, uses input from the front, and pays for its
output with room. -/
theorem turn_next {c e : Call} (h : c.turn = .next e) :
    e.work < c.work ∧ e.input.length ≤ c.input.length
      ∧ e.output.size + e.room = c.output.size + c.room := by
  unfold turn at h
  split at h
  · split at h
    · cases h
    · cases h
      simp only [work, emit, Array.size_push]
      omega
  · split at h
    · cases h
    · split at h
      · cases h
      · cases h
        simp only [work, emit, Array.size_push]
        omega
  · split at h
    · cases h
    · split at h
      · cases h
      · next b input hi =>
        split at h
        · cases h
        · next left _ _ _ =>
          cases h
          have hh := hold_takeStored c.decoder left
          simp only [work, emit, Array.size_push, hi, List.length_cons]
          omega
    · split at h
      · next bit hold hh =>
        split at h
        · cases h
        · next decoder hd =>
          cases h
          have := hold_acceptBit hd
          simp only [work, hh, List.length_cons, Nat.le_refl, and_true]
          dsimp only at this
          omega
      · next hh =>
        split at h
        · cases h
        · next b input hi =>
          cases h
          simp only [work, hh, hi, bitsOf, List.length_cons, List.length_map, List.length_range,
            List.length_nil, and_true]
          omega

theorem turn_blocked {c e : Call} (h : c.turn = .blocked e) : e = c := by
  unfold turn at h
  repeat' split at h
  all_goals cases h
  all_goals rfl

/-- Turns until no more can be done; `none` if the input is corrupt. -/
def run (c : Call) : Option Call :=
  match _h : c.turn with
  | .blocked e => some e
  | .corrupt => none
  | .next e => run e
termination_by c.work
decreasing_by exact (turn_next _h).1

theorem run_bounds {c e : Call} (h : c.run = some e) :
    e.input.length ≤ c.input.length ∧ e.output.size + e.room = c.output.size + c.room := by
  induction c using run.induct with
  | case1 c f hb =>
    have hf : c.run = some f := by
      rw [run]
      split <;> simp_all
    cases turn_blocked hb
    cases hf.symm.trans h
    exact ⟨Nat.le_refl _, rfl⟩
  | case2 c hc =>
    rw [run] at h
    split at h <;> simp_all
  | case3 c f hn ih =>
    have hf : c.run = f.run := by
      rw [run]
      split <;> simp_all
    have := turn_next hn
    have := ih (hf ▸ h)
    omega

end Call

/-- A call with this input and this much room. -/
def call (d : Inflater) (input : Bytes) (room : Nat) : Call :=
  { decoder := d, input, room, reach := min (1 <<< d.windowBits) d.history.size }

instance : Decompressor Inflater where
  fresh windowBits := { windowBits }
  advance d input room :=
    match h : (d.call input room).run with
    | none => none
    | some e => some
      { state := e.decoder
        consumed := input.length - e.input.length
        output := e.output.toList
        consumed_le := Nat.sub_le ..
        length_output_le := by
          have := (Call.run_bounds h).2
          simp only [call, Array.size_empty] at this
          simp only [Array.length_toList]
          omega }

end Inflater

end WebSocket.Flate
