/-
WebSocket/Text/Utf8.lean

UTF-8.

`decode` reads an octet string character by character.  Where it fails, the
error says how many octets were good, and how long the bad sequence is: the
longest prefix of it that could still have become a character, at least one
octet.  If the octets end inside such a prefix, the text is incomplete and no
length is given.
-/
import WebSocket.Bytes

namespace WebSocket.Text.Utf8

/-- The UTF-8 form of a text. -/
def encode (s : List Char) : Bytes :=
  s.flatMap String.utf8EncodeChar

/-- Where and how an octet string stops being UTF-8. -/
structure Error where
  /-- The number of octets in front of the fault. -/
  validUpTo : Nat
  /-- The length of the bad sequence, or `none` if the octets end inside one
  that is good so far. -/
  badLength : Option Nat
  deriving DecidableEq, Repr

/-- The wording of an error. -/
def Error.message (e : Error) : String :=
  match e.badLength with
  | some n => s!"invalid utf-8 sequence of {n} bytes from index {e.validUpTo}"
  | none => s!"incomplete utf-8 byte sequence from index {e.validUpTo}"

/-- Whether an octet can be inside a character. -/
def isTail (b : UInt8) : Bool :=
  0x80 ≤ b && b ≤ 0xbf

/-- The number of octets of a character that starts with `b`, and the range of
its second octet. -/
def lead? (b : UInt8) : Option (Nat × UInt8 × UInt8) :=
  if b < 0x80 then some (1, 0x80, 0xbf)
  else if b < 0xc2 then none
  else if b < 0xe0 then some (2, 0x80, 0xbf)
  else if b == 0xe0 then some (3, 0xa0, 0xbf)
  else if b == 0xed then some (3, 0x80, 0x9f)
  else if b < 0xf0 then some (3, 0x80, 0xbf)
  else if b == 0xf0 then some (4, 0x90, 0xbf)
  else if b < 0xf4 then some (4, 0x80, 0xbf)
  else if b == 0xf4 then some (4, 0x80, 0x8f)
  else none

/-- The first character of an octet string and the octets behind it, or else the
length of the bad sequence as in `Error.badLength`. -/
def head (b : UInt8) (bs : Bytes) : Except (Option Nat) (Char × Bytes) :=
  match lead? b with
  | none => .error (some 1)
  | some (1, _) => .ok (Char.ofNat b.toNat, bs)
  | some (2, _) =>
    match bs with
    | [] => .error none
    | c :: bs =>
      if isTail c then .ok (Char.ofNat ((b.toNat - 0xc0) * 64 + (c.toNat - 0x80)), bs)
      else .error (some 1)
  | some (3, low, high) =>
    match bs with
    | [] => .error none
    | c :: bs =>
      if !(low ≤ c && c ≤ high) then .error (some 1)
      else match bs with
        | [] => .error none
        | d :: bs =>
          if isTail d then
            .ok (Char.ofNat (((b.toNat - 0xe0) * 64 + (c.toNat - 0x80)) * 64
              + (d.toNat - 0x80)), bs)
          else .error (some 2)
  | some (_, low, high) =>
    match bs with
    | [] => .error none
    | c :: bs =>
      if !(low ≤ c && c ≤ high) then .error (some 1)
      else match bs with
        | [] => .error none
        | d :: bs =>
          if !isTail d then .error (some 2)
          else match bs with
            | [] => .error none
            | e :: bs =>
              if isTail e then
                .ok (Char.ofNat ((((b.toNat - 0xf0) * 64 + (c.toNat - 0x80)) * 64
                  + (d.toNat - 0x80)) * 64 + (e.toNat - 0x80)), bs)
              else .error (some 3)

/-- What `head` leaves is no longer than what it was given. -/
theorem length_of_head {b : UInt8} {bs rest : Bytes} {c : Char}
    (h : head b bs = .ok (c, rest)) : rest.length ≤ bs.length := by
  unfold head at h
  repeat' split at h
  all_goals simp_all
  all_goals (obtain ⟨_, rfl⟩ := h; omega)

/-- Reads the text behind `seen` good octets. -/
def decodeFrom (seen : Nat) : Bytes → Except Error (List Char)
  | [] => .ok []
  | b :: bs =>
    match h : head b bs with
    | .error badLength => .error ⟨seen, badLength⟩
    | .ok (c, rest) =>
      have := length_of_head h
      match decodeFrom (seen + c.utf8Size) rest with
      | .error e => .error e
      | .ok cs => .ok (c :: cs)
termination_by bs => bs.length

/-- Reads an octet string as UTF-8. -/
def decode (bs : Bytes) : Except Error (List Char) :=
  decodeFrom 0 bs

end WebSocket.Text.Utf8
