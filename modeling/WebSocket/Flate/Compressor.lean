/-
WebSocket/Flate/Compressor.lean

A DEFLATE compressor for messages that are sent part by part.

Design.  Each part becomes one block in the fixed codes, followed by an empty
stored block.  The latter ends at an octet boundary with the octets 00 00 FF FF,
so the peer can decode the part at once.  A part that is empty becomes the stored
block alone, and nothing at all if nothing has been written since the last one.

A call takes all of its input at once.  What there is no room for is kept for the
next call (`LzCompressor.ready`).

Matches are found with an index of the places where three octets were seen last.
The index only proposes: a match is as long as the octets really agree, and never
reaches back further than the window.
-/
import WebSocket.Flate.Format
import WebSocket.Flate.Stream
import Std.Data.HashMap

namespace WebSocket.Flate

/-! ### Matches -/

/-- An element of a block. -/
inductive Token where
  | literal (b : UInt8)
  /-- So many octets are the ones that stand `distance` before them. -/
  | reference (length distance : Nat)
  deriving DecidableEq, Repr

/-- The least length of a match. -/
def minMatch : Nat := 3

/-- The greatest length of a match. -/
def maxMatch : Nat := 258

/-- How many octets from `i` on agree with those from `j` on, up to `n`. -/
def agreement (data : Array UInt8) (i j : Nat) : (n : Nat) → Nat
  | 0 => 0
  | n + 1 =>
    if h : i < data.size ∧ j < data.size then
      if data[i] == data[j] then agreement data (i + 1) (j + 1) n + 1 else 0
    else 0

/-- Where each three octets were seen last. -/
abbrev Index := Std.HashMap (UInt8 × UInt8 × UInt8) Nat

/-- The three octets at a place. -/
def trigram? (data : Array UInt8) (i : Nat) : Option (UInt8 × UInt8 × UInt8) :=
  if h : i + 2 < data.size then some (data[i], data[i + 1], data[i + 2]) else none

/-- Notes the three octets at a place. -/
def Index.note (index : Index) (data : Array UInt8) (i : Nat) : Index :=
  match trigram? data i with
  | some key => index.insert key i
  | none => index

/-- The match at place `i` that the index proposes: its length and distance, or
`none` if it is too short or too far away. -/
def proposal? (window : Nat) (data : Array UInt8) (index : Index) (i : Nat) :
    Option (Nat × Nat) := do
  let key ← trigram? data i
  let j ← index[key]?
  let length := agreement data j i maxMatch
  if j < i ∧ i - j ≤ window ∧ minMatch ≤ length then some (length, i - j) else none

/-- The octets from place `i` on as tokens, at most `n` of them, behind those in
`acc`. -/
def tokenize (window : Nat) (data : Array UInt8) :
    (n : Nat) → (index : Index) → (i : Nat) → (acc : Array Token) → Array Token × Index
  | 0, index, _, acc => (acc, index)
  | n + 1, index, i, acc =>
    if h : i < data.size then
      -- The proposal comes first, as the index is changed in place.
      match proposal? window data index i with
      | some (length, distance) =>
        tokenize window data n (index.note data i) (i + length)
          (acc.push (.reference length distance))
      | none => tokenize window data n (index.note data i) (i + 1) (acc.push (.literal data[i]))
    else (acc, index)

/-! ### Bits -/

/-- The last `width` bits of a number, least significant first. -/
def numberBits (width n : Nat) : List Bool :=
  (List.range width).map fun i => n.testBit i

/-- A word of a prefix code, most significant bit first. -/
def wordBits (width n : Nat) : List Bool :=
  (numberBits width n).reverse

/-- The word of the fixed code for a literal, a match length or the end of a
block. -/
def fixedWord (symbol : Nat) : List Bool :=
  if symbol < 144 then wordBits 8 (0x30 + symbol)
  else if symbol < 256 then wordBits 9 (0x190 + (symbol - 144))
  else if symbol < 280 then wordBits 7 (symbol - 256)
  else wordBits 8 (0xc0 + (symbol - 280))

/-- The place in a table of the range that holds a number, the least number of
that range, and the number of extra bits. -/
def rangeOf (table : List (Nat × Nat)) (n : Nat) : Nat × Nat × Nat :=
  match (table.zipIdx.takeWhile fun r => r.1.1 ≤ n).getLast? with
  | some ((least, width), i) => (i, least, width)
  | none => (0, n, 0)

/-- A token in the fixed codes. -/
def Token.bits : Token → List Bool
  | literal b => fixedWord b.toNat
  | reference length distance =>
    let (i, leastLength, lengthWidth) := rangeOf lengthTable length
    let (j, leastDistance, distanceWidth) := rangeOf distanceTable distance
    fixedWord (257 + i) ++ numberBits lengthWidth (length - leastLength)
      ++ wordBits 5 j ++ numberBits distanceWidth (distance - leastDistance)

/-- A block in the fixed codes that is not the last one. -/
def blockBits (tokens : List Token) : List Bool :=
  [false, true, false] ++ tokens.flatMap Token.bits ++ fixedWord endOfBlock

/-- The number that bits denote, least significant first. -/
def bitsToNat (bits : List Bool) : Nat :=
  bits.foldr (fun b n => (if b then 1 else 0) + 2 * n) 0

/-- Bits in octets behind those in `acc`; the last octet is filled up with zeros. -/
def packInto (acc : Array UInt8) : List Bool → Array UInt8
  | a :: b :: c :: d :: e :: f :: g :: h :: bits =>
    packInto (acc.push (UInt8.ofNat (bitsToNat [a, b, c, d, e, f, g, h]))) bits
  | [] => acc
  | bits => acc.push (UInt8.ofNat (bitsToNat bits))

/-- Bits in octets. -/
def pack (bits : List Bool) : Bytes :=
  (packInto #[] bits).toList

/-- What an empty stored block ends with. -/
def flushMarker : Bytes := [0x00, 0x00, 0xff, 0xff]

/-! ### The compressor -/

/-- A compressor. -/
structure LzCompressor where
  windowBits : Nat
  /-- All octets of the message so far. -/
  history : Array UInt8 := #[]
  index : Index := {}
  /-- Whether a flush would have nothing to write. -/
  flushed : Bool := false
  /-- What is compressed, but not written yet. -/
  ready : Bytes := []

namespace LzCompressor

/-- The next part of a message in compressed form. -/
def flush (c : LzCompressor) (input : Bytes) : LzCompressor × Bytes :=
  if input.isEmpty then
    if c.flushed then (c, [])
    else ({ c with flushed := true }, pack [false, false, false] ++ flushMarker)
  else
    let start := c.history.size
    let data := c.history ++ input.toArray
    let (tokens, index) := tokenize (1 <<< c.windowBits) data input.length c.index start #[]
    ({ c with history := data, index, flushed := true },
      pack (blockBits tokens.toList ++ [false, false, false]) ++ flushMarker)

/-- Compresses all of the input, and writes as much as there is room for. -/
def advance (c : LzCompressor) (input : Bytes) (room : Nat) : Advance LzCompressor input room :=
  let (next, flushed) := c.flush input
  let ready := next.ready ++ flushed
  { state := { next with ready := ready.drop room }
    consumed := input.length
    output := ready.take room
    consumed_le := Nat.le_refl _
    length_output_le := List.length_take_le _ _ }

@[simp] theorem ready_flush (c : LzCompressor) (input : Bytes) :
    (c.flush input).1.ready = c.ready := by
  unfold flush
  split
  · split <;> rfl
  · rfl

theorem flushed_flush (c : LzCompressor) (input : Bytes) : (c.flush input).1.flushed := by
  unfold flush
  split
  · split
    · next h => exact h
    · rfl
  · rfl

theorem flush_nil {c : LzCompressor} (hc : c.flushed) : c.flush [] = (c, []) := by
  simp [flush, hc]

/-- The octets that are still to be written when the input is taken. -/
def unwritten (c : LzCompressor) (input : Bytes) : Bytes :=
  (c.flush input).1.ready ++ (c.flush input).2

theorem output_advance (c : LzCompressor) (input : Bytes) (room : Nat) :
    (c.advance input room).output = (c.unwritten input).take room := rfl

theorem state_advance (c : LzCompressor) (input : Bytes) (room : Nat) :
    (c.advance input room).state
      = { (c.flush input).1 with ready := (c.unwritten input).drop room } := rfl

/-- Behind a call there is no input left, and nothing to flush. -/
theorem flush_advance (c : LzCompressor) (input : Bytes) (room : Nat) :
    (c.advance input room).state.flush (input.drop (c.advance input room).consumed)
      = ((c.advance input room).state, []) := by
  have hdrop : input.drop (c.advance input room).consumed = [] := List.drop_length
  rw [hdrop]
  exact flush_nil (flushed_flush c input)

/-- To be written is then what there was no room for. -/
theorem unwritten_advance (c : LzCompressor) (input : Bytes) (room : Nat) :
    (c.advance input room).state.unwritten (input.drop (c.advance input room).consumed)
      = (c.unwritten input).drop room := by
  rw [unwritten, flush_advance, List.append_nil, state_advance]

end LzCompressor

instance : Compressor LzCompressor where
  fresh windowBits := { windowBits }
  advance c input room := .ok (c.advance input room)
  work c input := (c.unwritten input).length
  work_lt {c input room a} hroom ha _ hmore := by
    obtain rfl := Except.ok.inj ha
    -- All input is taken, so the room is full, and so much less is left to write.
    have hfull : ((c.unwritten input).take room).length = room :=
      hmore.resolve_left (Nat.lt_irrefl _)
    rw [List.length_take] at hfull
    rw [LzCompressor.unwritten_advance, List.length_drop]
    omega

end WebSocket.Flate
