/-
WebSocket/Proofs/Frame/Grammar.lean

The grammar of frames, and what a decoder says of octets that do not follow it.

Design.  A frame on the wire is made of `Frame.Parts`: two leading octets, the octets of a
length that is too long for them, a mask and a payload, each as long as those in front of it
say.  Any such parts have a meaning (`Frame.Parts.frame`), and `Decoder.rules` says which of
them a decoder accepts.

A rule is decided by a number of octets at the front: the rules for the leading octets by
these, and the rules for the length when all of it is there.  `firstBroken?` is the first of
the rules that are known to be broken.  The stages of the decoder are gone through with these
rules, one lemma for each way on: the lead (`decode_of_leadRules`), the length
(`readLength_of_le`, `checkLength_eq`), and what is behind it (`readMask_parts`).

Behind a header that is all there, the decoder wants room for the payload that it announces
(`Frame.announced`), which no buffer may have: any limit can be set, and a limit that is beyond
the greatest buffer keeps nothing out that would have to be kept out (`stops_at_greatest_length`).
-/
import Mathlib.Data.List.Basic
import WebSocket.Proofs.Frame.Room

namespace WebSocket

/-! ### Numbers in octets -/

namespace Bytes

theorem foldl_toNat (bs : Bytes) (a : Nat) :
    bs.foldl (fun n b => n * 256 + b.toNat) a = a * capacity bs.length + toNat bs := by
  unfold toNat
  induction bs generalizing a with
  | nil => simp [capacity]
  | cons b bs ih =>
    rw [List.foldl_cons, List.foldl_cons, ih, ih (0 * 256 + b.toNat), List.length_cons, capacity]
    rw [Nat.zero_mul, Nat.zero_add, Nat.add_mul, Nat.mul_assoc, Nat.add_assoc]

theorem toNat_cons (b : UInt8) (bs : Bytes) :
    toNat (b :: bs) = b.toNat * capacity bs.length + toNat bs := by
  rw [toNat, List.foldl_cons, Nat.zero_mul, Nat.zero_add, foldl_toNat]

theorem toNat_lt (bs : Bytes) : toNat bs < capacity bs.length := by
  induction bs with
  | nil => exact Nat.one_pos
  | cons b bs ih =>
    have hb : b.toNat + 1 ≤ 256 := b.toNat_lt
    have hmul := Nat.mul_le_mul_right (capacity bs.length) hb
    rw [Nat.add_mul, Nat.one_mul] at hmul
    rw [toNat_cons, List.length_cons, capacity]
    omega

theorem capacity_pos (width : Nat) : 0 < capacity width := by
  induction width with
  | zero => exact Nat.one_pos
  | succ width ih => exact Nat.mul_pos (by decide) ih

/-- What is beyond the capacity is dropped. -/
theorem ofNat_mul_add (width a n : Nat) : ofNat width (a * capacity width + n) = ofNat width n := by
  induction width generalizing a with
  | zero => rfl
  | succ width ih =>
    have hassoc : a * capacity (width + 1) = 256 * a * capacity width := by
      rw [capacity, ← Nat.mul_assoc, Nat.mul_comm a]
    have hhead : (256 * a * capacity width + n) / capacity width
        = 256 * a + n / capacity width := by
      rw [Nat.add_comm, Nat.add_mul_div_right _ _ (capacity_pos width), Nat.add_comm]
    rw [hassoc, ofNat, ofNat, ih, hhead]
    congr 1
    apply UInt8.toNat_inj.1
    rw [UInt8.toNat_ofNat', UInt8.toNat_ofNat', Nat.mul_add_mod]

/-- Octets are written again as they were read. -/
theorem ofNat_toNat (bs : Bytes) : ofNat bs.length (toNat bs) = bs := by
  induction bs with
  | nil => rfl
  | cons b bs ih =>
    have hhead : (b.toNat * capacity bs.length + toNat bs) / capacity bs.length = b.toNat := by
      rw [Nat.add_comm, Nat.add_mul_div_right _ _ (capacity_pos bs.length),
        Nat.div_eq_of_lt (toNat_lt bs), Nat.zero_add]
    rw [List.length_cons, ofNat, toNat_cons, ofNat_mul_add, ih, hhead, UInt8.ofNat_toNat]

end Bytes

/-- The octets of a mask are taken one after the other, over and over. -/
theorem maskByte_eq {key : Bytes} (h : key.length = 4) (i : Nat) :
    maskByte (UInt32.ofNat (Bytes.toNat key)) i = key.getD (i % 4) 0 := by
  obtain ⟨a, b, c, e, rfl⟩ := List.length_eq_four.1 h
  have hn : Bytes.toNat [a, b, c, e]
      = ((a.toNat * 256 + b.toNat) * 256 + c.toNat) * 256 + e.toNat := by
    simp [Bytes.toNat]
  have ha := a.toNat_lt
  have hb := b.toNat_lt
  have hc := c.toNat_lt
  have he := e.toNat_lt
  apply UInt8.toNat_inj.1
  have hcases : i % 4 = 0 ∨ i % 4 = 1 ∨ i % 4 = 2 ∨ i % 4 = 3 := by omega
  rw [maskByte, hn]
  rcases hcases with h | h | h | h <;> rw [h] <;>
    simp [UInt32.toNat_shiftRight, Nat.shiftRight_eq_div_pow] <;> omega

/-! ### Frames part by part -/

namespace Frame

/-- The two leading octets of a frame. -/
structure Lead where
  first : UInt8
  second : UInt8
  deriving DecidableEq, Repr

namespace Lead

def opcode (l : Lead) : Opcode :=
  (Opcode.ofNat? (l.first.toNat % 16)).getD .reserved

def fin (l : Lead) : Bool :=
  l.first.toNat.testBit 7

def rsv (l : Lead) : ReservedBits :=
  ⟨l.first.toNat.testBit 6, l.first.toNat.testBit 5, l.first.toNat.testBit 4⟩

def masked (l : Lead) : Bool :=
  l.second.toNat.testBit 7

/-- The seven bits of the length. -/
def code (l : Lead) : Nat :=
  l.second.toNat % 128

/-- How many octets of the length follow: none, two or eight. -/
def width (l : Lead) : Nat :=
  if l.code = 126 then 2 else if l.code = 127 then 8 else 0

/-- The length of the payload, where `extra` follows. -/
def length (l : Lead) (extra : Bytes) : Nat :=
  if l.code < 126 then l.code else Bytes.toNat extra

/-- How many octets of a mask follow. -/
def keyWidth (l : Lead) : Nat :=
  if l.masked then 4 else 0

/-- The header without its mask. -/
def header (l : Lead) : Header :=
  { opcode := l.opcode, fin := l.fin, rsv := l.rsv, masked := l.masked }

end Lead

/-- A frame on the wire.  Each part is as long as those in front of it say. -/
structure Parts extends Lead where
  extra : Bytes
  key : Bytes
  body : Bytes
  length_extra : extra.length = toLead.width
  length_key : key.length = toLead.keyWidth
  length_body : body.length = toLead.length extra

namespace Parts

def octets (p : Parts) : Bytes :=
  p.first :: p.second :: (p.extra ++ p.key ++ p.body)

/-- What the parts mean.  The octets of the mask are taken off the payload one after the other,
over and over. -/
def frame (p : Parts) : Frame :=
  { toHeader := { p.header with mask := UInt32.ofNat (Bytes.toNat p.key) }
    payload := p.body.mapIdx fun i b => b ^^^ p.key.getD (i % 4) 0 }

/-- The length has no shorter form: seven bits hold the numbers below 126, and two octets those
below 65536. -/
def IsShortest (p : Parts) : Prop :=
  p.width = 0 ∨ p.width = 2 ∧ 126 ≤ p.body.length ∨ p.width = 8 ∧ 65536 ≤ p.body.length

instance (p : Parts) : Decidable p.IsShortest :=
  inferInstanceAs (Decidable (_ ∨ _ ∧ _ ∨ _ ∧ _))

end Parts

/-- The length of the payload that the octets in front of it announce; zero as long as the mask or
what is before it is not all there. -/
def announced : (input : Bytes) → Nat
  | first :: second :: more =>
    let l : Lead := ⟨first, second⟩
    if l.width + l.keyWidth ≤ more.length then l.length (more.take l.width) else 0
  | _ => 0

namespace Parts

theorem length_key_of_masked {p : Parts} (h : p.masked) : p.key.length = 4 := by
  rw [p.length_key, Lead.keyWidth, if_pos h]

theorem key_of_not_masked {p : Parts} (h : ¬p.masked) : p.key = [] := by
  rw [← List.length_eq_zero_iff, p.length_key, Lead.keyWidth, if_neg h]

theorem payload_frame (p : Parts) :
    p.frame.payload = if p.masked then WebSocket.mask p.frame.mask p.body else p.body := by
  by_cases hm : p.masked
  · rw [if_pos hm]
    show _ = WebSocket.mask (UInt32.ofNat (Bytes.toNat p.key)) p.body
    simp only [WebSocket.mask, maskByte_eq (p.length_key_of_masked hm)]
    rfl
  · rw [if_neg hm]
    apply List.ext_getElem <;> simp [frame, p.key_of_not_masked hm]

end Parts
end Frame

namespace Decoder

/-! ### The rules -/

/-- A rule of the grammar, for the octets of one frame. -/
structure Rule where
  /-- How many octets at the front decide whether the rule is broken. -/
  octets : Nat
  broken : Bool
  error : FrameError
  deriving DecidableEq, Repr

open WebSocket.Frame (Lead Parts)

/-- The rules for the two leading octets. -/
def leadRules (d : Decoder) (l : Lead) : List Rule :=
  [⟨2, l.opcode = .reserved, .reservedOpcode⟩,
    ⟨2, l.opcode.isControl && !l.fin, .fragmentedControl⟩,
    ⟨2, l.rsv.rsv1 && !d.inUse.rsv1, .reservedBit 1⟩,
    ⟨2, l.rsv.rsv2 && !d.inUse.rsv2, .reservedBit 2⟩,
    ⟨2, l.rsv.rsv3 && !d.inUse.rsv3, .reservedBit 3⟩]

/-- The rules for the length. -/
def lengthRules (d : Decoder) (l : Lead) (extra : Bytes) : List Rule :=
  [⟨2 + l.width, l.opcode.isControl && maxControlLength < l.length extra, .controlTooLong⟩,
    ⟨2 + l.width, d.limit.toNat < l.length extra,
      .payloadTooLarge (l.length extra) d.limit.toNat⟩]

/-- All rules, in the order in which they count. -/
def rules (d : Decoder) (l : Lead) (extra : Bytes) : List Rule :=
  d.leadRules l ++ d.lengthRules l extra

/-- No rule is broken. -/
def Admits (d : Decoder) (p : Parts) : Prop :=
  ∀ r ∈ d.rules p.toLead p.extra, r.broken = false

instance (d : Decoder) (p : Parts) : Decidable (d.Admits p) :=
  inferInstanceAs (Decidable (∀ r ∈ d.rules p.toLead p.extra, r.broken = false))

/-- The first of the rules that are known to be broken when the octets of `input` are there. -/
def firstBroken? (d : Decoder) : (input : Bytes) → Option Rule
  | first :: second :: more =>
    let l : Lead := ⟨first, second⟩
    (d.rules l (more.take l.width)).find? fun r => r.octets ≤ 2 + more.length && r.broken
  | _ => none

/-- No rule is known to be broken, but there is no frame at the front either. -/
def Unfinished (d : Decoder) (input : Bytes) : Prop :=
  d.firstBroken? input = none ∧ ∀ (p : Parts) rest, d.Admits p → input ≠ p.octets ++ rest

/-- The rules for the lead are decided as soon as there is one, and those for the length when it
is there. -/
theorem firstBroken?_lead (d : Decoder) (l : Lead) (more : Bytes) :
    d.firstBroken? (l.first :: l.second :: more)
      = ((d.leadRules l).find? Rule.broken).or
        (if l.width ≤ more.length then
          (d.lengthRules l (more.take l.width)).find? Rule.broken else none) := by
  have hlead : (d.leadRules l).find? (fun r => r.octets ≤ 2 + more.length && r.broken)
      = (d.leadRules l).find? Rule.broken := by
    simp [leadRules, List.find?_cons]
  have hlength : (d.lengthRules l (more.take l.width)).find?
        (fun r => r.octets ≤ 2 + more.length && r.broken)
      = if l.width ≤ more.length then
          (d.lengthRules l (more.take l.width)).find? Rule.broken else none := by
    by_cases h : l.width ≤ more.length <;> simp [lengthRules, List.find?_cons, h]
  rw [firstBroken?, rules, List.find?_append, hlead, hlength]

/-! ### The lead -/

theorem exists_ofNat? {n : Nat} (h : n < 16) :
    Opcode.ofNat? n = some ((Opcode.ofNat? n).getD .reserved) := by
  revert n
  decide

/-- The bits of an octet, as the decoder takes them. -/
theorem bits_eq (b : UInt8) :
    decide (0x80 ≤ b) = b.toNat.testBit 7 ∧ (b &&& 0x40 != 0) = b.toNat.testBit 6
      ∧ (b &&& 0x20 != 0) = b.toNat.testBit 5 ∧ (b &&& 0x10 != 0) = b.toNat.testBit 4 := by
  have hall (n : Fin 256) : let b := UInt8.ofNat n
      decide (0x80 ≤ b) = b.toNat.testBit 7 ∧ (b &&& 0x40 != 0) = b.toNat.testBit 6
        ∧ (b &&& 0x20 != 0) = b.toNat.testBit 5 ∧ (b &&& 0x10 != 0) = b.toNat.testBit 4 := by
    revert n
    decide +kernel
  have hb := hall ⟨b.toNat, b.toNat_lt⟩
  rwa [UInt8.ofNat_toNat] at hb

/-- What a decoder does with a lead, by what the lead says. -/
theorem parseLead_lead_eq (inUse : ReservedBits) (l : Lead) :
    parseLead inUse l.first l.second
      = if l.opcode = .reserved then .error .reservedOpcode
        else if l.opcode.isControl && !l.fin then .error .fragmentedControl
        else match (l.rsv.diff inUse).lowest? with
          | some n => .error (.reservedBit n)
          | none => .ok (l.header, l.code) := by
  have hop : Opcode.ofNat? (l.first.toNat % 16) = some l.opcode :=
    exists_ofNat? (Nat.mod_lt _ (by decide))
  have hreserved : l.opcode.isReserved = decide (l.opcode = .reserved) := by
    cases l.opcode <;> rfl
  obtain ⟨hfin, h1, h2, h3⟩ := bits_eq l.first
  obtain ⟨hmasked, -⟩ := bits_eq l.second
  simp only [parseLead, hop, hfin, h1, h2, h3, hmasked, hreserved, decide_eq_true_eq]
  rfl

/-- The lead is refused for the first of its rules that is broken. -/
theorem parseLead_eq (d : Decoder) (l : Lead) :
    parseLead d.inUse l.first l.second
      = match (d.leadRules l).find? Rule.broken with
        | some r => .error r.error
        | none => .ok (l.header, l.code) := by
  rw [parseLead_lead_eq]
  by_cases hop : l.opcode = .reserved
  · simp [leadRules, hop]
  by_cases hcontrol : l.opcode.isControl && !l.fin
  · simp only [leadRules, List.find?_cons, hop, hcontrol, if_false, if_true, decide_false]
  -- Of the bits that are not in use the lowest counts, and so does its rule.
  rw [if_neg hop, if_neg hcontrol]
  simp only [leadRules, List.find?_cons, hop, hcontrol, decide_false, ReservedBits.lowest?,
    ReservedBits.diff]
  by_cases h1 : l.rsv.rsv1 && !d.inUse.rsv1
  · simp only [h1, if_true]
  by_cases h2 : l.rsv.rsv2 && !d.inUse.rsv2
  · simp only [h1, h2, Bool.false_eq_true, if_false, if_true]
  by_cases h3 : l.rsv.rsv3 && !d.inUse.rsv3
  · simp only [h1, h2, h3, Bool.false_eq_true, if_false, if_true]
  · simp only [h1, h2, h3, Bool.false_eq_true, if_false, List.find?_nil]

theorem decode_of_leadRules {d : Decoder} {l : Lead} {r : Rule} (hd : d.stage = .start)
    (h : (d.leadRules l).find? Rule.broken = some r) (more : Bytes) :
    d.decode (l.first :: l.second :: more) = d.fail more r.error := by
  apply decode_lead_error hd
  rw [parseLead_eq, h]

theorem decode_of_lead {d : Decoder} {l : Lead} (hd : d.stage = .start)
    (h : (d.leadRules l).find? Rule.broken = none) (more : Bytes) :
    d.decode (l.first :: l.second :: more) = d.readLength l.header l.code more := by
  apply decode_lead_ok hd
  rw [parseLead_eq, h]

/-! ### The length -/

/-- A call waits for more octets, and wants room for so many. -/
structure Decoded.Waits (r : Decoded) (wanted : Nat) : Prop where
  result : r.result = .ok none
  wanted : r.decoder.wanted = wanted

theorem readLength_of_lt {d : Decoder} {l : Lead} {more : Bytes} (h : more.length < l.width) :
    (d.readLength l.header l.code more).Waits 0 := by
  have hw : ¬lengthWidth l.code ≤ more.length := Nat.not_le.2 h
  have hwait : d.readLength l.header l.code more = d.wait (.length l.header l.code) more := by
    simp [readLength, hw]
  rw [hwait]
  exact ⟨rfl, rfl⟩

theorem readLength_of_le {d : Decoder} {l : Lead} {more : Bytes} (h : l.width ≤ more.length) :
    d.readLength l.header l.code more
      = d.checkLength l.header (l.length (more.take l.width)) (more.drop l.width) := by
  have hw : lengthWidth l.code ≤ more.length := h
  have hlt : l.code < 128 := Nat.mod_lt _ (by decide)
  have hzero : lengthWidth l.code = 0 ↔ l.code < 126 := by
    unfold lengthWidth
    split_ifs
    · exact iff_of_false (by decide) (by omega)
    · exact iff_of_false (by decide) (by omega)
    · exact iff_of_true rfl (by omega)
  simp only [readLength, Bytes.atLeast_iff, hw, if_true, hzero]
  rfl

/-- The length is refused for the first of its rules that is broken. -/
theorem checkLength_eq (d : Decoder) (l : Lead) (extra input : Bytes) :
    d.checkLength l.header (l.length extra) input
      = match (d.lengthRules l extra).find? Rule.broken with
        | some r => d.fail input r.error
        | none => d.readMask l.header (l.length extra) input := by
  by_cases hcontrol : l.opcode.isControl && maxControlLength < l.length extra
  · have hc : l.header.opcode.isControl && maxControlLength < l.length extra := hcontrol
    simp only [checkLength, hc, lengthRules, List.find?_cons, hcontrol, if_true]
  have hc : ¬(l.header.opcode.isControl && maxControlLength < l.length extra) := hcontrol
  by_cases hlimit : d.limit.toNat < l.length extra
  · simp only [checkLength, hc, Bool.false_eq_true, if_false, hlimit, if_true, lengthRules,
      List.find?_cons, hcontrol, decide_true]
  · simp only [checkLength, hc, Bool.false_eq_true, if_false, hlimit, lengthRules,
      List.find?_cons, hcontrol, decide_false, List.find?_nil]

/-! ### Behind the length -/

/-- Parts that are all there are taken, and nothing behind them. -/
theorem readMask_parts (d : Decoder) (p : Parts) (rest : Bytes) :
    d.readMask p.header p.body.length (p.key ++ (p.body ++ rest))
      = ⟨{ d with stage := .start }, rest, .ok (some p.frame)⟩ := by
  have hpayload := p.payload_frame
  by_cases hm : p.masked
  · have hm' : p.header.masked = true := hm
    have hread : d.readMask p.header p.body.length (p.key ++ (p.body ++ rest))
        = d.readPayload p.frame.toHeader p.body.length (p.body ++ rest) := by
      obtain ⟨a, b, c, e, hkey⟩ := List.length_eq_four.1 (p.length_key_of_masked hm)
      simp [readMask, hm', hkey, Parts.frame]
    rw [if_pos hm] at hpayload
    have hm' : p.frame.masked = true := hm
    rw [hread, readPayload_append, if_pos hm', ← hpayload]
  · have hm' : p.header.masked = false := Bool.eq_false_iff.2 hm
    have hkey := p.key_of_not_masked hm
    have hheader : p.header = p.frame.toHeader := by
      simp [Parts.frame, hkey, Bytes.toNat, Lead.header]
    rw [if_neg hm] at hpayload
    rw [readMask_unmasked _ _ _ hm', hkey, List.nil_append, readPayload_append, hm',
      if_neg Bool.false_ne_true, hheader, ← hpayload]

/-- Without all of the mask and of the payload the decoder waits, and if only the payload is
missing, it wants room for it. -/
theorem readMask_of_lt {d : Decoder} {l : Lead} {n : Nat} {input : Bytes}
    (h : input.length < l.keyWidth + n) :
    (d.readMask l.header n input).Waits (if l.keyWidth ≤ input.length then n else 0) := by
  have hpayload (header : Header) {input : Bytes} (h : input.length < n) :
      (d.readPayload header n input).Waits n := by
    have hwait : d.readPayload header n input = d.wait (.payload header n) input := by
      simp [readPayload, Nat.not_le.2 h]
    rw [hwait]
    exact ⟨rfl, rfl⟩
  unfold Lead.keyWidth at h ⊢
  by_cases hm : l.masked
  · rw [if_pos hm] at h ⊢
    have hm' : l.header.masked = true := hm
    simp only [readMask, hm', Bool.not_true, Bool.false_eq_true, if_false]
    split
    · simp only [List.length_cons] at h ⊢
      rw [if_pos (by omega)]
      exact hpayload _ (by omega)
    · next hshort =>
      have hlt : ¬4 ≤ input.length := by
        intro hle
        rcases input with - | ⟨a, - | ⟨b, - | ⟨c, - | ⟨e, rest⟩⟩⟩⟩
        case cons.cons.cons.cons => exact hshort a b c e rest rfl
        all_goals
          simp only [List.length_cons, List.length_nil] at hle
          omega
      rw [if_neg hlt]
      exact ⟨rfl, rfl⟩
  · rw [if_neg hm, Nat.zero_add] at h
    have hm' : l.header.masked = false := Bool.eq_false_iff.2 hm
    rw [readMask_unmasked _ _ _ hm', if_neg hm, if_pos (Nat.zero_le _)]
    exact hpayload _ h

/-! ### Parts and octets -/

theorem exists_parts {l : Lead} {more : Bytes}
    (h : l.width + (l.keyWidth + l.length (more.take l.width)) ≤ more.length) :
    ∃ p : Parts, p.toLead = l ∧ p.extra = more.take l.width
      ∧ ∃ rest, more = p.extra ++ (p.key ++ (p.body ++ rest)) := by
  let behind := more.drop l.width
  have hbehind : behind.length = more.length - l.width := List.length_drop
  let p : Parts :=
    { toLead := l
      extra := more.take l.width
      key := behind.take l.keyWidth
      body := (behind.drop l.keyWidth).take (l.length (more.take l.width))
      length_extra := List.length_take_of_le (by omega)
      length_key := List.length_take_of_le (by omega)
      length_body := List.length_take_of_le (by rw [List.length_drop]; omega) }
  refine ⟨p, rfl, rfl, (behind.drop l.keyWidth).drop (l.length (more.take l.width)), ?_⟩
  show more = more.take l.width ++ (behind.take l.keyWidth ++ (_ ++ _))
  rw [List.take_append_drop, List.take_append_drop, List.take_append_drop]

/-- What a decoder makes of parts at the front of a stream. -/
theorem decode_parts {d : Decoder} {p : Parts} (hd : d.stage = .start) (hp : d.Admits p)
    (rest : Bytes) : d.decode (p.octets ++ rest) = ⟨d, rest, .ok (some p.frame)⟩ := by
  have hfind (rules : List Rule) (h : ∀ r ∈ rules, r ∈ d.rules p.toLead p.extra) :
      rules.find? Rule.broken = none := by
    rw [List.find?_eq_none]
    intro r hr
    rw [hp r (h r hr)]
    exact Bool.false_ne_true
  have hlead := hfind (d.leadRules p.toLead) fun r hr => List.mem_append_left _ hr
  have hlength := hfind (d.lengthRules p.toLead p.extra) fun r hr => List.mem_append_right _ hr
  have hoctets : p.octets ++ rest
      = p.first :: p.second :: (p.extra ++ (p.key ++ (p.body ++ rest))) := by
    simp [Parts.octets]
  have hwidth : p.width ≤ (p.extra ++ (p.key ++ (p.body ++ rest))).length := by
    rw [List.length_append, p.length_extra]
    exact Nat.le_add_right _ _
  have hd' : { d with stage := .start } = d := by rw [← hd]
  rw [hoctets, decode_of_lead hd hlead, readLength_of_le hwidth, List.take_left' p.length_extra,
    List.drop_left' p.length_extra, checkLength_eq, hlength]
  dsimp only
  rw [← p.length_body, readMask_parts, hd']

theorem exists_lead {input : Bytes} (h : 2 ≤ input.length) :
    ∃ (l : Lead) (more : Bytes), input = l.first :: l.second :: more := by
  match input, h with
  | first :: second :: more, _ => exact ⟨⟨first, second⟩, more, rfl⟩

/-- Without the two leading octets no rule is known to be broken. -/
theorem firstBroken?_of_lt_two {d : Decoder} {input : Bytes} (h : input.length < 2) :
    d.firstBroken? input = none := by
  match input, h with
  | [], _ | [_], _ => rfl

theorem announced_of_lt_two {input : Bytes} (h : input.length < 2) : Frame.announced input = 0 := by
  match input, h with
  | [], _ | [_], _ => rfl

theorem decode_of_lt_two {d : Decoder} {input : Bytes} (hd : d.stage = .start)
    (h : input.length < 2) : (d.decode input).Waits 0 := by
  rw [decode_of_lt_demand (by rw [demand, hd]; exact h)]
  exact ⟨rfl, by simp only [wanted, hd]⟩

/-- A rule that is known to be broken is one for the lead, or one for the length and the length
is there. -/
theorem firstBroken?_cases {d : Decoder} {input : Bytes} {r : Rule}
    (h : d.firstBroken? input = some r) :
    ∃ (l : Lead) (more : Bytes), input = l.first :: l.second :: more
      ∧ ((d.leadRules l).find? Rule.broken = some r ∧ r.octets = 2
        ∨ (d.leadRules l).find? Rule.broken = none ∧ l.width ≤ more.length
          ∧ (d.lengthRules l (more.take l.width)).find? Rule.broken = some r
          ∧ r.octets = 2 + l.width) := by
  by_cases hlt : input.length < 2
  · rw [firstBroken?_of_lt_two hlt] at h
    cases h
  obtain ⟨l, more, rfl⟩ := exists_lead (Nat.not_lt.1 hlt)
  refine ⟨l, more, rfl, ?_⟩
  rw [firstBroken?_lead, Option.or_eq_some_iff] at h
  rcases h with h | ⟨hlead, h⟩
  · have hmem := List.mem_of_find?_eq_some h
    have hoctets : ∀ r ∈ d.leadRules l, r.octets = 2 := by simp [leadRules]
    exact .inl ⟨h, hoctets r hmem⟩
  · split_ifs at h with hw
    have hmem := List.mem_of_find?_eq_some h
    have hoctets : ∀ r ∈ d.lengthRules l (more.take l.width), r.octets = 2 + l.width := by
      simp [lengthRules]
    exact .inr ⟨hlead, hw, h, hoctets r hmem⟩

/-- The octets are refused for the first rule that is known to be broken, and from the octet on
with which it is known. -/
theorem decode_take_of_le {d : Decoder} {input : Bytes} {r : Rule} (hd : d.stage = .start)
    (hr : d.firstBroken? input = some r) {k : Nat} (hk : r.octets ≤ k) :
    (d.decode (input.take k)).result = .error r.error := by
  obtain ⟨l, more, rfl, hcases⟩ := firstBroken?_cases hr
  have htwo : 2 ≤ k := by
    rcases hcases with ⟨-, h⟩ | ⟨-, -, -, h⟩ <;> omega
  obtain ⟨k, rfl⟩ : ∃ m, k = m + 2 := ⟨k - 2, by omega⟩
  rw [List.take_succ_cons, List.take_succ_cons]
  rcases hcases with ⟨hlead, -⟩ | ⟨hlead, hw, hlength, hoctets⟩
  · rw [decode_of_leadRules hd hlead]
    rfl
  · have hle : l.width ≤ k := by omega
    have hwidth : l.width ≤ (more.take k).length := by
      rw [List.length_take]
      omega
    rw [decode_of_lead hd hlead, readLength_of_le hwidth, List.take_take, Nat.min_eq_left hle,
      checkLength_eq, hlength]
    rfl

/-- Before that octet the decoder waits, and there is no payload yet that it wants room for. -/
theorem decode_take_of_lt {d : Decoder} {input : Bytes} {r : Rule} (hd : d.stage = .start)
    (hr : d.firstBroken? input = some r) {k : Nat} (hk : k < r.octets) :
    (d.decode (input.take k)).Waits 0 := by
  by_cases htwo : k < 2
  · exact decode_of_lt_two hd (Nat.lt_of_le_of_lt (List.length_take_le _ _) htwo)
  obtain ⟨l, more, rfl, hcases⟩ := firstBroken?_cases hr
  obtain ⟨k, rfl⟩ : ∃ m, k = m + 2 := ⟨k - 2, by omega⟩
  rw [List.take_succ_cons, List.take_succ_cons]
  rcases hcases with ⟨-, hoctets⟩ | ⟨hlead, -, -, hoctets⟩
  · omega
  · have hwidth : (more.take k).length < l.width :=
      Nat.lt_of_le_of_lt (List.length_take_le _ _) (by omega)
    rw [decode_of_lead hd hlead]
    exact readLength_of_lt hwidth

theorem decode_of_firstBroken {d : Decoder} {input : Bytes} {r : Rule} (hd : d.stage = .start)
    (hr : d.firstBroken? input = some r) : (d.decode input).result = .error r.error := by
  have hle : r.octets ≤ input.length := by
    obtain ⟨l, more, rfl, hcases⟩ := firstBroken?_cases hr
    simp only [List.length_cons]
    rcases hcases with ⟨-, h⟩ | ⟨-, hw, -, h⟩ <;> omega
  have htake := decode_take_of_le hd hr hle
  rwa [List.take_length] at htake

/-- Where no rule is known to be broken, the octets begin with a frame, or the decoder waits and
wants room for what they announce. -/
theorem decode_of_not_broken {d : Decoder} {input : Bytes} (hd : d.stage = .start)
    (hr : d.firstBroken? input = none) :
    (∃ (p : Parts) (rest : Bytes), d.Admits p ∧ input = p.octets ++ rest)
      ∨ (d.decode input).Waits (Frame.announced input) := by
  by_cases hlt : input.length < 2
  · rw [announced_of_lt_two hlt]
    exact .inr (decode_of_lt_two hd hlt)
  obtain ⟨l, more, rfl⟩ := exists_lead (Nat.not_lt.1 hlt)
  have hannounced : Frame.announced (l.first :: l.second :: more)
      = if l.width + l.keyWidth ≤ more.length then l.length (more.take l.width) else 0 := rfl
  rw [firstBroken?_lead, Option.or_eq_none_iff] at hr
  obtain ⟨hlead, hlength⟩ := hr
  rw [decode_of_lead hd hlead, hannounced]
  by_cases hw : l.width ≤ more.length
  · rw [if_pos hw] at hlength
    rw [readLength_of_le hw, checkLength_eq, hlength]
    by_cases hle : l.width + (l.keyWidth + l.length (more.take l.width)) ≤ more.length
    · left
      obtain ⟨p, rfl, hextra, rest, hmore⟩ := exists_parts hle
      refine ⟨p, rest, ?_, by rw [Parts.octets]; simp [hmore]⟩
      intro r hr
      rw [rules, hextra] at hr
      rcases List.mem_append.1 hr with hr | hr
      · exact Bool.eq_false_iff.2 (List.find?_eq_none.1 hlead r hr)
      · exact Bool.eq_false_iff.2 (List.find?_eq_none.1 hlength r hr)
    · right
      have hmask : l.keyWidth ≤ (more.drop l.width).length
          ↔ l.width + l.keyWidth ≤ more.length := by
        rw [List.length_drop]
        omega
      simp only [← hmask]
      apply readMask_of_lt
      rw [List.length_drop]
      omega
  · rw [if_neg (by omega)]
    exact .inr (readLength_of_lt (Nat.not_le.1 hw))

/-- A decoder that waits has not met a frame. -/
theorem unfinished_of_result {d : Decoder} {input : Bytes} (hd : d.stage = .start)
    (h : (d.decode input).result = .ok none) : d.Unfinished input := by
  refine ⟨?_, ?_⟩
  · rcases hr : d.firstBroken? input with - | r
    · rfl
    · rw [decode_of_firstBroken hd hr] at h
      cases h
  · rintro p rest hp rfl
    rw [decode_parts hd hp] at h
    cases h

/-! ### Writing again -/

/-- The leading octets are written as they were read, unless the opcode has no meaning. -/
theorem firstByte_header {l : Lead} (h : l.opcode ≠ .reserved) :
    Frame.firstByte l.header = l.first := by
  have hall (n : Fin 256) : let l : Lead := ⟨UInt8.ofNat n, 0⟩
      l.opcode ≠ .reserved → Frame.firstByte l.header = l.first := by
    revert n
    decide +kernel
  have hl := hall ⟨l.first.toNat, l.first.toNat_lt⟩
  simp only [UInt8.ofNat_toNat] at hl
  exact hl h

theorem secondByte_code (l : Lead) : Frame.secondByte l.masked l.code = l.second := by
  have hall (n : Fin 256) : let l : Lead := ⟨0, UInt8.ofNat n⟩
      Frame.secondByte l.masked l.code = l.second := by
    revert n
    decide +kernel
  have hl := hall ⟨l.second.toNat, l.second.toNat_lt⟩
  simp only [UInt8.ofNat_toNat] at hl
  exact hl

theorem body_frame (p : Parts) : p.frame.body = p.key ++ p.body := by
  have hpayload := p.payload_frame
  by_cases hm : p.masked
  · have hm' : p.frame.masked = true := hm
    have hkey := p.length_key_of_masked hm
    have hlt := Bytes.toNat_lt p.key
    rw [hkey] at hlt
    have hmask : p.frame.mask.toNat = Bytes.toNat p.key := UInt32.toNat_ofNat_of_lt' hlt
    have hwritten := Bytes.ofNat_toNat p.key
    rw [hkey] at hwritten
    rw [if_pos hm] at hpayload
    rw [Frame.body, if_pos hm', hpayload, mask_mask, hmask, hwritten]
  · have hm' : p.frame.masked = false := Bool.eq_false_iff.2 hm
    rw [if_neg hm] at hpayload
    rw [Frame.body, hm', if_neg Bool.false_ne_true, hpayload, p.key_of_not_masked hm,
      List.nil_append]

theorem length_lengthField_snd (n : Nat) :
    (lengthField n).2.length = lengthWidth (lengthField n).1 := by
  unfold lengthField
  split_ifs with h
  · have h6 : n ≠ 126 := by omega
    have h7 : n ≠ 127 := by omega
    simp [lengthWidth, h6, h7]
  · rfl
  · rfl

/-- The encoder writes the length as it stands exactly if there is no shorter form. -/
theorem lengthField_eq_iff (p : Parts) :
    lengthField p.body.length = (p.code, p.extra) ↔ p.IsShortest := by
  have hn := p.length_body
  have hextra := p.length_extra
  have hlt : p.code < 128 := Nat.mod_lt _ (by decide)
  have hvalue := Bytes.toNat_lt p.extra
  have hwritten := Bytes.ofNat_toNat p.extra
  obtain ⟨bound, hbound⟩ : ∃ bound, Bytes.capacity 2 = bound := ⟨_, rfl⟩
  have hpow : 65536 = bound := hbound
  unfold Parts.IsShortest
  unfold Lead.length at hn
  unfold Lead.width at hextra ⊢
  rw [lengthField, hpow, hbound]
  by_cases h6 : p.code = 126
  · -- two octets
    rw [if_neg (by omega)] at hn
    rw [if_pos h6] at hextra
    rw [hextra, ← hn] at hwritten
    rw [hextra, ← hn, hbound] at hvalue
    by_cases hle : 126 ≤ p.body.length
    · simp [h6, hvalue, hwritten, hle, Nat.not_lt.2 hle]
    · have hne : p.body.length ≠ 126 := by omega
      simp [h6, hle, Nat.not_le.1 hle, hne]
  by_cases h7 : p.code = 127
  · -- eight octets
    rw [if_neg (by omega)] at hn
    rw [if_neg h6, if_pos h7] at hextra
    rw [hextra, ← hn] at hwritten
    by_cases hle : bound ≤ p.body.length
    · have h6' : ¬p.body.length < 126 := by omega
      simp [h7, h6', hwritten, hle, Nat.not_lt.2 hle]
    · have hlow := Nat.not_le.1 hle
      by_cases hsmall : p.body.length < 126
      · have hne : p.body.length ≠ 127 := by omega
        simp [h7, hsmall, hne, hle]
      · simp [h7, hsmall, hlow, hle]
  · -- none: the code is the length
    have hsmall : p.code < 126 := by omega
    rw [if_neg h6, if_neg h7, List.length_eq_zero_iff] at hextra
    rw [if_pos hsmall] at hn
    simp [hn, hsmall, h6, h7, hextra]

/-- A frame is written again with the octets that it had, up to the form of its length. -/
theorem wire_frame_eq_iff {p : Parts} (hp : p.opcode ≠ .reserved) :
    p.frame.wire = p.octets ↔ p.IsShortest := by
  have hfirst : Frame.firstByte p.frame.toHeader = p.first := firstByte_header hp
  have hlength : p.frame.payload.length = p.body.length := List.length_mapIdx
  have hwire : p.frame.wire
      = p.first :: Frame.secondByte p.masked (lengthField p.body.length).1
        :: ((lengthField p.body.length).2 ++ (p.key ++ p.body)) := by
    rw [Frame.wire_eq, hfirst, hlength, body_frame]
    rfl
  rw [hwire, Parts.octets, List.append_assoc, ← lengthField_eq_iff]
  constructor
  · intro h
    obtain ⟨hsecond, hmore⟩ := List.cons.inj (List.cons.inj h).2
    -- The mask bit is the same, so the code is, and with it the number of octets behind it.
    have hcode : (lengthField p.body.length).1 = p.code := by
      rw [← Frame.secondByte_mod (lengthField_fst_lt p.body.length), hsecond]
      rfl
    have hextra : (lengthField p.body.length).2.length = p.extra.length := by
      rw [length_lengthField_snd, hcode, p.length_extra]
      rfl
    exact Prod.ext hcode (List.append_inj_left hmore hextra)
  · intro h
    rw [h, secondByte_code]

theorem Admits.encode_frame {d : Decoder} {p : Parts} (hp : d.Admits p) :
    p.frame.encode d.inUse = .ok p.frame.wire := by
  have hbits : p.frame.rsv ⊆ d.inUse := by
    rw [ReservedBits.subset_iff]
    simp only [Admits, rules, leadRules, List.cons_append, List.forall_mem_cons] at hp
    obtain ⟨-, -, h1, h2, h3, -⟩ := hp
    have hrsv : p.frame.rsv = p.rsv := rfl
    rw [hrsv]
    refine ⟨fun h => ?_, fun h => ?_, fun h => ?_⟩
    · simpa [h] using h1
    · simpa [h] using h2
    · simpa [h] using h3
  rw [Frame.encode, Frame.append_of_subset hbits]
  rfl

/-! ### The grammar -/

/-- What a call comes to: a broken rule, a frame, a wait, or a payload without room. -/
theorem call_cases {d : Decoder} (hd : d.stage = .start) (capacity : Nat) (input : Bytes) :
    (∃ r s, d.firstBroken? input = some r ∧ d.call capacity input = some s
        ∧ s.result = .error r.error)
      ∨ (∃ (p : Parts) (rest : Bytes), d.firstBroken? input = none ∧ d.Admits p
        ∧ input = p.octets ++ rest ∧ d.call capacity input = some ⟨d, rest, .ok (some p.frame)⟩)
      ∨ (∃ s, d.Unfinished input ∧ Frame.announced input ≤ capacity
        ∧ d.call capacity input = some s ∧ s.result = .ok none)
      ∨ d.Unfinished input ∧ capacity < Frame.announced input ∧ d.call capacity input = none := by
  rcases hr : d.firstBroken? input with - | r
  · right
    rcases decode_of_not_broken hd hr with ⟨p, rest, hp, rfl⟩ | hwaits
    · left
      have hdecode := decode_parts hd hp rest
      have hwanted : (d.decode (p.octets ++ rest)).decoder.wanted ≤ capacity :=
        wanted_le_of_result (by rw [hdecode]; nofun)
      exact ⟨p, rest, rfl, hp, rfl, by rw [call_of_wanted_le hwanted, hdecode]⟩
    · right
      have hunfinished := unfinished_of_result hd hwaits.result
      by_cases hle : Frame.announced input ≤ capacity
      · exact .inl ⟨_, hunfinished, hle, call_of_wanted_le (hwaits.wanted ▸ hle), hwaits.result⟩
      · have hlt := Nat.not_le.1 hle
        exact .inr ⟨hunfinished, hlt, call_of_lt_wanted (hwaits.wanted ▸ hlt)⟩
  · left
    have herror := decode_of_firstBroken hd hr
    exact ⟨r, _, rfl, call_of_wanted_le (wanted_le_of_result (by rw [herror]; nofun)), herror⟩

/-- **A decoder accepts the frames of its grammar and refuses the others for the first rule that
they break.**  The decoder is between frames, with any bits in use and any limit, and the buffer
can hold any number of octets.

* A call gives a frame, and leaves `rest`, exactly if the octets up to there are parts that break
  none of its rules.  The frame is what the parts mean.
* Such a frame is written again, with the same bits in use, with the octets that it had exactly
  if its length has no shorter form.
* It fails exactly if a rule is known to be broken, and with the error of the first such rule.
  The two leading octets decide the rules for them, and the rules for the length are decided when
  all of the length is there.
* With any number of the octets the error is the same, from those on that decide the rule, and
  with fewer octets the decoder waits.
* Otherwise the octets are unfinished.  Then it waits if what they announce has room in the
  buffer, and if not, the program stops. -/
theorem call_iff_grammar {d : Decoder} (hd : d.stage = .start) (capacity : Nat) (input : Bytes) :
    (∀ f rest, (d.call capacity input).map (fun s => (s.result, s.rest)) = some (.ok (some f), rest)
      ↔ ∃ p : Parts, d.Admits p ∧ input = p.octets ++ rest ∧ f = p.frame)
    ∧ (∀ p : Parts, d.Admits p → (p.frame.encode d.inUse = .ok p.octets ↔ p.IsShortest))
    ∧ (∀ e, (d.call capacity input).map Decoded.result = some (.error e)
      ↔ (d.firstBroken? input).map Rule.error = some e)
    ∧ (∀ r, d.firstBroken? input = some r → ∀ k,
      (d.call capacity (input.take k)).map Decoded.result
        = some (if r.octets ≤ k then .error r.error else .ok none))
    ∧ ((d.call capacity input).map Decoded.result = some (.ok none)
      ↔ d.Unfinished input ∧ Frame.announced input ≤ capacity)
    ∧ (d.call capacity input = none
      ↔ d.Unfinished input ∧ capacity < Frame.announced input) := by
  have hcases := call_cases hd capacity input
  refine ⟨fun f rest => ?_, fun p hp => ?_, fun e => ?_, fun r hr k => ?_, ?_, ?_⟩
  · constructor
    · intro hcall
      rcases hcases with ⟨r, s, -, hs, herror⟩ | ⟨p, rest', -, hp, hinput, hs⟩
        | ⟨s, -, -, hs, hwait⟩ | ⟨-, -, hs⟩
      · simp [hs, herror] at hcall
      · rw [hs] at hcall
        cases hcall
        exact ⟨p, hp, hinput, rfl⟩
      · simp [hs, hwait] at hcall
      · simp [hs] at hcall
    · rintro ⟨p, hp, rfl, rfl⟩
      have hdecode := decode_parts hd hp rest
      rw [call_of_wanted_le (wanted_le_of_result (by rw [hdecode]; nofun)), hdecode]
      rfl
  · have hop : p.opcode ≠ .reserved := by
      have hrule := hp ⟨2, p.opcode = .reserved, .reservedOpcode⟩ (by simp [rules, leadRules])
      simpa using hrule
    rw [hp.encode_frame, Except.ok.injEq]
    exact wire_frame_eq_iff hop
  · rcases hcases with ⟨r, s, hr, hs, herror⟩ | ⟨p, rest, hr, -, -, hs⟩
      | ⟨s, ⟨hr, -⟩, -, hs, hwait⟩ | ⟨⟨hr, -⟩, -, hs⟩
    · simp [hr, hs, herror]
    · simp [hr, hs]
    · simp [hr, hs, hwait]
    · simp [hr, hs]
  · by_cases hk : r.octets ≤ k
    · have herror := decode_take_of_le hd hr hk
      rw [if_pos hk, call_of_wanted_le (wanted_le_of_result (by rw [herror]; nofun)),
        Option.map_some, herror]
    · have hwaits := decode_take_of_lt hd hr (Nat.not_le.1 hk)
      rw [if_neg hk, call_of_wanted_le (hwaits.wanted ▸ Nat.zero_le capacity), Option.map_some,
        hwaits.result]
  · rcases hcases with ⟨r, s, hr, hs, herror⟩ | ⟨p, rest, -, hp, rfl, hs⟩
      | ⟨s, hunfinished, hle, hs, hwait⟩ | ⟨-, hlt, hs⟩
    · simp [Unfinished, hr, hs, herror]
    · have hnot : ¬d.Unfinished (p.octets ++ rest) := fun h => h.2 p rest hp rfl
      simp [hnot, hs]
    · simp [hunfinished, hle, hs, hwait]
    · simp [Nat.not_le.2 hlt, hs]
  · rcases hcases with ⟨r, s, hr, hs, herror⟩ | ⟨p, rest, -, hp, rfl, hs⟩
      | ⟨s, -, hle, hs, -⟩ | ⟨hunfinished, hlt, hs⟩
    · simp [Unfinished, hr, hs]
    · have hnot : ¬d.Unfinished (p.octets ++ rest) := fun h => h.2 p rest hp rfl
      simp [hnot, hs]
    · simp [Nat.not_lt.2 hle, hs]
    · simp [hunfinished, hlt, hs]

/-- A masked frame that uses a reserved bit, with a length in two octets that has a shorter form.
With one octet of the length less the decoder waits, and a limit below the length is met as soon
as all of the length is there.  Where the payload is missing, it is waited for in a buffer of
three octets, but not in one of two. -/
theorem call_iff_grammar_of_long_form :
    let p : Parts :=
      { first := 0xc2, second := 0xfe, extra := [0, 3], key := [1, 2, 3, 4], body := [1, 0, 3]
        length_extra := by decide, length_key := by decide, length_body := by decide }
    let d : Decoder := { inUse := .single 1, limit := 3 }
    let strict : Decoder := { inUse := .single 1, limit := 2 }
    let f : Frame :=
      { opcode := .binary, rsv := .single 1, masked := true, mask := 0x01020304
        payload := [0, 2, 0] }
    (d.call maxBuffer (p.octets ++ [0x89])).map (fun s => (s.result, s.rest))
        = some (.ok (some f), [0x89])
      ∧ f.encode d.inUse ≠ .ok p.octets
      ∧ (strict.call maxBuffer (p.octets.take 3)).map Decoded.result = some (.ok none)
      ∧ (strict.call maxBuffer (p.octets.take 4)).map Decoded.result
        = some (.error (.payloadTooLarge 3 2))
      ∧ (d.call 3 (p.octets.take 8)).map Decoded.result = some (.ok none)
      ∧ d.call 2 (p.octets.take 8) = none := by
  intro p d strict f
  have hp : d.Admits p := by decide
  have hbroken : strict.firstBroken? p.octets = some ⟨4, true, .payloadTooLarge 3 2⟩ := by
    decide
  have hunfinished : d.Unfinished (p.octets.take 8) := unfinished_of_result rfl (by decide)
  obtain ⟨hframe, hwritten, -⟩ := call_iff_grammar (d := d) rfl maxBuffer (p.octets ++ [0x89])
  obtain ⟨-, -, -, htake, -⟩ := call_iff_grammar (d := strict) rfl maxBuffer p.octets
  obtain ⟨-, -, -, -, hwaits, -⟩ := call_iff_grammar (d := d) rfl 3 (p.octets.take 8)
  obtain ⟨-, -, -, -, -, hstops⟩ := call_iff_grammar (d := d) rfl 2 (p.octets.take 8)
  have hf : f = p.frame := by decide
  have hlong : f.encode d.inUse ≠ .ok p.octets := by
    intro h
    rw [hf] at h
    exact absurd ((hwritten p hp).1 h) (by decide)
  exact ⟨(hframe f [0x89]).2 ⟨p, hp, rfl, hf⟩, hlong, htake _ hbroken 3, htake _ hbroken 4,
    hwaits.2 ⟨hunfinished, by decide⟩, hstops.2 ⟨hunfinished, by decide⟩⟩

/-- **The greatest length stops the program.**  With no limit to speak of, the octets of this
header break no rule, and there is no frame at the front.  But no buffer can hold the payload that
they announce, so the call does not say that it waits. -/
theorem stops_at_greatest_length :
    let d : Decoder := { limit := 0xffffffffffffffff }
    let input : Bytes := 0x82 :: 0x7f :: List.replicate 8 0xff
    d.stage = .start ∧ d.Unfinished input ∧ Frame.announced input = 0xffffffffffffffff
      ∧ ∀ capacity ≤ maxBuffer, d.call capacity input = none := by
  intro d input
  have hresult : (d.decode input).result = .ok none := by decide
  have hwanted : (d.decode input).decoder.wanted = 0xffffffffffffffff := by decide
  refine ⟨rfl, unfinished_of_result rfl hresult, by decide, fun capacity hle => ?_⟩
  apply call_of_lt_wanted
  rw [hwanted]
  exact Nat.lt_of_le_of_lt hle (by decide)

end Decoder
end WebSocket
