/-
WebSocket/Digest/Sha1.lean

The SHA-1 digest, which the handshake uses to show that the peer has read the
key of the request.
-/
import WebSocket.Bytes

namespace WebSocket.Sha1

/-- The five words of the chaining value. -/
structure Chain where
  a : UInt32 := 0x67452301
  b : UInt32 := 0xefcdab89
  c : UInt32 := 0x98badcfe
  d : UInt32 := 0x10325476
  e : UInt32 := 0xc3d2e1f0
  deriving DecidableEq, Repr

/-- Rotates a word to the left. -/
def rotl (x : UInt32) (n : UInt32) : UInt32 :=
  (x <<< n) ||| (x >>> (32 - n))

/-- The message with a one bit, zeros, and its length in bits behind it, so that
the whole is made of blocks of 64 octets. -/
def pad (message : Bytes) : Bytes :=
  let zeros := (119 - message.length % 64) % 64
  message ++ 0x80 :: List.replicate zeros 0 ++ Bytes.ofNat 8 (8 * message.length)

/-- Octets in words of four. -/
def words : Bytes → List UInt32
  | a :: b :: c :: d :: rest => UInt32.ofNat (Bytes.toNat [a, b, c, d]) :: words rest
  | _ => []

/-- The next `n` words of the schedule behind the sixteen words `w`. -/
def schedule (w : List UInt32) : Nat → List UInt32
  | 0 => []
  | n + 1 =>
    let next := rotl (w.getD 13 0 ^^^ w.getD 8 0 ^^^ w.getD 2 0 ^^^ w.getD 0 0) 1
    next :: schedule (w.tail ++ [next]) n

/-- The round function and the constant of round `t`. -/
def mix (t : Nat) (b c d : UInt32) : UInt32 :=
  if t < 20 then ((b &&& c) ||| (~~~b &&& d)) + 0x5a827999
  else if t < 40 then (b ^^^ c ^^^ d) + 0x6ed9eba1
  else if t < 60 then ((b &&& c) ||| (b &&& d) ||| (c &&& d)) + 0x8f1bbcdc
  else (b ^^^ c ^^^ d) + 0xca62c1d6

/-- The rounds from `t` on, one for each word. -/
def rounds (t : Nat) (s : Chain) : List UInt32 → Chain
  | [] => s
  | w :: ws =>
    let a := rotl s.a 5 + mix t s.b s.c s.d + s.e + w
    rounds (t + 1) ⟨a, s.a, rotl s.b 30, s.c, s.d⟩ ws

/-- Takes one block of sixteen words into the chaining value. -/
def absorb (s : Chain) (block : List UInt32) : Chain :=
  let r := rounds 0 s (block ++ schedule block 64)
  ⟨s.a + r.a, s.b + r.b, s.c + r.c, s.d + r.d, s.e + r.e⟩

/-- Takes all blocks, `n` of them. -/
def absorbAll (s : Chain) (ws : List UInt32) : Nat → Chain
  | 0 => s
  | n + 1 => absorbAll (absorb s (ws.take 16)) (ws.drop 16) n

/-- The digest of a message, twenty octets. -/
def digest (message : Bytes) : Bytes :=
  let ws := words (pad message)
  let s := absorbAll {} ws (ws.length / 16)
  [s.a, s.b, s.c, s.d, s.e].flatMap fun w => Bytes.ofNat 4 w.toNat

end WebSocket.Sha1
