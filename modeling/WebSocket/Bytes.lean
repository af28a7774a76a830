/-
WebSocket/Bytes.lean

Octet strings, and numbers written in network order (most significant octet
first), as the frame header and the digest need them.

`toNat_ofNat` says that `width` octets hold every number below `capacity width`,
so that a length or a mask read back is the one that was written.

`atLeast` compares a length with a number without going through all octets, which
may be many more than are asked for (`atLeast_iff`).
-/

namespace WebSocket

/-- An octet string. -/
abbrev Bytes := List UInt8

namespace Bytes

/-- How many numbers `width` octets can stand for. -/
def capacity : (width : Nat) → Nat
  | 0 => 1
  | width + 1 => 256 * capacity width

/-- The last `width` octets of `n` in network order; higher ones are dropped. -/
def ofNat : (width n : Nat) → Bytes
  | 0, _ => []
  | width + 1, n => UInt8.ofNat (n / capacity width) :: ofNat width n

/-- The number that an octet string denotes in network order. -/
def toNat (bs : Bytes) : Nat :=
  bs.foldl (fun n b => n * 256 + b.toNat) 0

/-- The octets of a text all of whose characters are below `U+0100`, as the fixed
parts of a message are. -/
def ofLatin (s : String) : Bytes :=
  s.toList.map fun c => UInt8.ofNat c.toNat

/-- Whether there are `n` octets or more. -/
def atLeast : Bytes → (n : Nat) → Bool
  | _, 0 => true
  | [], _ + 1 => false
  | _ :: bs, n + 1 => atLeast bs n

@[simp] theorem atLeast_iff {bs : Bytes} {n : Nat} : atLeast bs n ↔ n ≤ bs.length := by
  fun_induction atLeast bs n <;> simp_all

@[simp] theorem length_ofNat (width n : Nat) : (ofNat width n).length = width := by
  induction width with
  | zero => rfl
  | succ width ih => simp [ofNat, ih]

theorem foldl_ofNat (width n a : Nat) :
    (ofNat width n).foldl (fun n b => n * 256 + b.toNat) a
      = a * capacity width + n % capacity width := by
  induction width generalizing a with
  | zero => simp [ofNat, capacity, Nat.mod_one]
  | succ width ih =>
    have hb : (UInt8.ofNat (n / capacity width)).toNat = n / capacity width % 256 := by simp
    have hn : n % (256 * capacity width)
        = n / capacity width % 256 * capacity width + n % capacity width := by
      rw [Nat.mul_comm 256, Nat.mod_mul, Nat.mul_comm (capacity width), Nat.add_comm]
    rw [ofNat, List.foldl_cons, ih, hb, capacity, hn, Nat.add_mul, Nat.mul_assoc, Nat.add_assoc]

theorem toNat_ofNat {width n : Nat} (h : n < capacity width) : toNat (ofNat width n) = n := by
  rw [toNat, foldl_ofNat, Nat.mod_eq_of_lt h, Nat.zero_mul, Nat.zero_add]

end Bytes

end WebSocket
