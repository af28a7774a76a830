/-
WebSocket/Proofs/Text/Utf8.lean

Reading UTF-8 undoes writing it, and reads nothing else (`decode_eq_ok_iff`).

The reading of one character is given in numbers first, with one lemma for each number of
octets (`head_eq_ok_iff_one` to `head_eq_ok_iff_four`), and so is the writing (`encodeChar_one`
to `encodeChar_four`).  That the two fit is arithmetic then.  The ranges of the second octet
are what keeps out longer forms of smaller numbers, surrogates, and numbers that are too large.
-/
import WebSocket.Text.Utf8

namespace WebSocket.Text.Utf8

/-! ### The first two octets -/

theorem lead?_one {b : UInt8} (h : b.toNat < 0x80) : lead? b = some (1, 0x80, 0xbf) := by
  rw [lead?, if_pos (UInt8.lt_iff_toNat_lt.2 h)]

theorem lead?_two {b : UInt8} (h : 0xc2 ≤ b.toNat) (h' : b.toNat < 0xe0) :
    lead? b = some (2, 0x80, 0xbf) := by
  simp only [lead?, UInt8.lt_iff_toNat_lt, beq_iff_eq, ← UInt8.toNat_inj, UInt8.reduceToNat]
  grind

theorem lead?_three {b : UInt8} (h : 0xe0 ≤ b.toNat) (h' : b.toNat < 0xf0) :
    lead? b
      = some (3, if b.toNat = 0xe0 then 0xa0 else 0x80, if b.toNat = 0xed then 0x9f else 0xbf) := by
  simp only [lead?, UInt8.lt_iff_toNat_lt, beq_iff_eq, ← UInt8.toNat_inj, UInt8.reduceToNat]
  grind

theorem lead?_four {b : UInt8} (h : 0xf0 ≤ b.toNat) (h' : b.toNat < 0xf5) :
    lead? b
      = some (4, if b.toNat = 0xf0 then 0x90 else 0x80, if b.toNat = 0xf4 then 0x8f else 0xbf) := by
  simp only [lead?, UInt8.lt_iff_toNat_lt, beq_iff_eq, ← UInt8.toNat_inj, UInt8.reduceToNat]
  grind

theorem lead?_none {b : UInt8} (h : 0x80 ≤ b.toNat ∧ b.toNat < 0xc2 ∨ 0xf5 ≤ b.toNat) :
    lead? b = none := by
  simp only [lead?, UInt8.lt_iff_toNat_lt, beq_iff_eq, ← UInt8.toNat_inj, UInt8.reduceToNat]
  grind

theorem isTail_iff {b : UInt8} : isTail b ↔ 0x80 ≤ b.toNat ∧ b.toNat ≤ 0xbf := by
  rw [isTail, Bool.and_eq_true, decide_eq_true_eq, decide_eq_true_eq, UInt8.le_iff_toNat_le,
    UInt8.le_iff_toNat_le]
  exact Iff.rfl

/-- A range that is narrower behind some first octets, in numbers. -/
theorem in_range_iff {b c low low' high high' : UInt8} {x y : Nat} (hlow : low.toNat ≤ low'.toNat)
    (hhigh : high'.toNat ≤ high.toNat) :
    (if b.toNat = x then low' else low) ≤ c ∧ c ≤ (if b.toNat = y then high' else high) ↔
      (low.toNat ≤ c.toNat ∧ c.toNat ≤ high.toNat)
        ∧ (b.toNat = x → low'.toNat ≤ c.toNat) ∧ (b.toNat = y → c.toNat ≤ high'.toNat) := by
  rw [UInt8.le_iff_toNat_le, UInt8.le_iff_toNat_le, apply_ite UInt8.toNat, apply_ite UInt8.toNat]
  grind

/-! ### Writing a character -/

theorem toNat_ofNat {n : Nat} (h : n.isValidChar) : (Char.ofNat n).toNat = n := by
  rw [Char.ofNat, dif_pos h]
  rfl

section

variable {n : Nat} (hn : n.isValidChar)
include hn

theorem encodeChar_one (h : n < 0x80) :
    String.utf8EncodeChar (Char.ofNat n) = [UInt8.ofNat n] := by
  rw [String.utf8EncodeChar, show (Char.ofNat n).val.toNat = n from toNat_ofNat hn,
    if_pos (by omega)]

theorem encodeChar_two (h : 0x80 ≤ n) (h' : n < 0x800) :
    String.utf8EncodeChar (Char.ofNat n)
      = [UInt8.ofNat (n / 64 + 0xc0), UInt8.ofNat (n % 64 + 0x80)] := by
  rw [String.utf8EncodeChar, show (Char.ofNat n).val.toNat = n from toNat_ofNat hn,
    if_neg (by omega), if_pos (by omega), Nat.mod_eq_of_lt (b := 32) (by omega)]

theorem encodeChar_three (h : 0x800 ≤ n) (h' : n < 0x10000) :
    String.utf8EncodeChar (Char.ofNat n)
      = [UInt8.ofNat (n / 4096 + 0xe0), UInt8.ofNat (n / 64 % 64 + 0x80),
        UInt8.ofNat (n % 64 + 0x80)] := by
  rw [String.utf8EncodeChar, show (Char.ofNat n).val.toNat = n from toNat_ofNat hn,
    if_neg (by omega), if_neg (by omega), if_pos (by omega),
    Nat.mod_eq_of_lt (b := 16) (by omega)]

theorem encodeChar_four (h : 0x10000 ≤ n) (h' : n < 0x110000) :
    String.utf8EncodeChar (Char.ofNat n)
      = [UInt8.ofNat (n / 262144 + 0xf0), UInt8.ofNat (n / 4096 % 64 + 0x80),
        UInt8.ofNat (n / 64 % 64 + 0x80), UInt8.ofNat (n % 64 + 0x80)] := by
  rw [String.utf8EncodeChar, show (Char.ofNat n).val.toNat = n from toNat_ofNat hn,
    if_neg (by omega), if_neg (by omega), if_neg (by omega),
    Nat.mod_eq_of_lt (b := 8) (by omega)]

end

/-! ### Reading a character -/

variable {b : UInt8} {bs rest : Bytes} {c : Char}

theorem head_eq_ok_iff_one (hb : b.toNat < 0x80) :
    head b bs = .ok (c, rest) ↔ bs = rest ∧ c = Char.ofNat b.toNat := by
  simp only [head, lead?_one hb]
  grind

theorem head_eq_ok_iff_two (hb : 0xc2 ≤ b.toNat) (hb' : b.toNat < 0xe0) :
    head b bs = .ok (c, rest) ↔
      ∃ d, bs = d :: rest ∧ (0x80 ≤ d.toNat ∧ d.toNat ≤ 0xbf)
        ∧ c = Char.ofNat ((b.toNat - 0xc0) * 64 + (d.toNat - 0x80)) := by
  simp only [head, lead?_two hb hb', ← isTail_iff]
  grind

theorem head_eq_ok_iff_three (hb : 0xe0 ≤ b.toNat) (hb' : b.toNat < 0xf0) :
    head b bs = .ok (c, rest) ↔
      ∃ d e, bs = d :: e :: rest
        ∧ ((0x80 ≤ d.toNat ∧ d.toNat ≤ 0xbf)
          ∧ (b.toNat = 0xe0 → 0xa0 ≤ d.toNat) ∧ (b.toNat = 0xed → d.toNat ≤ 0x9f))
        ∧ (0x80 ≤ e.toNat ∧ e.toNat ≤ 0xbf)
        ∧ c = Char.ofNat (((b.toNat - 0xe0) * 64 + (d.toNat - 0x80)) * 64 + (e.toNat - 0x80)) := by
  have hrange (d : UInt8) := @in_range_iff b d 0x80 0xa0 0xbf 0x9f 0xe0 0xed (by decide) (by decide)
  simp only [UInt8.reduceToNat] at hrange
  simp only [head, lead?_three hb hb', ← hrange]
  simp only [← isTail_iff]
  grind

theorem head_eq_ok_iff_four (hb : 0xf0 ≤ b.toNat) (hb' : b.toNat < 0xf5) :
    head b bs = .ok (c, rest) ↔
      ∃ d e f, bs = d :: e :: f :: rest
        ∧ ((0x80 ≤ d.toNat ∧ d.toNat ≤ 0xbf)
          ∧ (b.toNat = 0xf0 → 0x90 ≤ d.toNat) ∧ (b.toNat = 0xf4 → d.toNat ≤ 0x8f))
        ∧ (0x80 ≤ e.toNat ∧ e.toNat ≤ 0xbf) ∧ (0x80 ≤ f.toNat ∧ f.toNat ≤ 0xbf)
        ∧ c = Char.ofNat ((((b.toNat - 0xf0) * 64 + (d.toNat - 0x80)) * 64
          + (e.toNat - 0x80)) * 64 + (f.toNat - 0x80)) := by
  have hrange (d : UInt8) := @in_range_iff b d 0x80 0x90 0xbf 0x8f 0xf0 0xf4 (by decide) (by decide)
  simp only [UInt8.reduceToNat] at hrange
  simp only [head, lead?_four hb hb', ← hrange]
  simp only [← isTail_iff]
  grind

theorem ofNat_eq {n : Nat} (h : n = b.toNat) : UInt8.ofNat n = b := by
  rw [h, UInt8.ofNat_toNat]

/-- The octets that are read as a character are the form of this character. -/
theorem eq_encodeChar_append (h : head b bs = .ok (c, rest)) :
    b :: bs = String.utf8EncodeChar c ++ rest := by
  by_cases h₁ : b.toNat < 0x80
  · -- one octet
    obtain ⟨rfl, hc⟩ := (head_eq_ok_iff_one h₁).1 h
    rw [hc, encodeChar_one (.inl (by omega)) h₁, UInt8.ofNat_toNat]
    rfl
  by_cases h₂ : 0xc2 ≤ b.toNat ∧ b.toNat < 0xe0
  · -- two octets
    obtain ⟨d, rfl, hd, hc⟩ := (head_eq_ok_iff_two h₂.1 h₂.2).1 h
    rw [hc, encodeChar_two (.inl (by omega)) (by omega) (by omega), ofNat_eq (b := b) (by omega),
      ofNat_eq (b := d) (by omega)]
    rfl
  by_cases h₃ : 0xe0 ≤ b.toNat ∧ b.toNat < 0xf0
  · -- three octets: by the range of the second one the number is neither smaller nor a surrogate
    obtain ⟨d, e, rfl, hd, he, hc⟩ := (head_eq_ok_iff_three h₃.1 h₃.2).1 h
    rw [hc, encodeChar_three (by show _ ∨ _; omega) (by omega) (by omega),
      ofNat_eq (b := b) (by omega), ofNat_eq (b := d) (by omega), ofNat_eq (b := e) (by omega)]
    rfl
  by_cases h₄ : 0xf0 ≤ b.toNat ∧ b.toNat < 0xf5
  · -- four octets: by the range of the second one the number is that of a character
    obtain ⟨d, e, f, rfl, hd, he, hf, hc⟩ := (head_eq_ok_iff_four h₄.1 h₄.2).1 h
    rw [hc, encodeChar_four (.inr (by omega)) (by omega) (by omega), ofNat_eq (b := b) (by omega),
      ofNat_eq (b := d) (by omega), ofNat_eq (b := e) (by omega), ofNat_eq (b := f) (by omega)]
    rfl
  · -- no character starts with this octet
    have hnone : lead? b = none := lead?_none (by omega)
    simp only [head, hnone] at h
    cases h

/-- The form of a character is read as this character, whatever follows it. -/
theorem head_encodeChar (c : Char) :
    ∃ b bs, String.utf8EncodeChar c = b :: bs ∧ ∀ rest, head b (bs ++ rest) = .ok (c, rest) := by
  obtain ⟨n, hn, rfl⟩ : ∃ n : Nat, n.isValidChar ∧ Char.ofNat n = c :=
    ⟨c.toNat, c.valid, Char.ofNat_toNat c⟩
  have hvalid : n < 0xd800 ∨ 0xdfff < n ∧ n < 0x110000 := hn
  have hoctet {m : Nat} (hm : m < 0x100) : (UInt8.ofNat m).toNat = m := UInt8.toNat_ofNat_of_lt' hm
  by_cases h₁ : n < 0x80
  · have hb := hoctet (m := n) (by omega)
    refine ⟨_, _, encodeChar_one hn h₁, fun rest => ?_⟩
    exact (head_eq_ok_iff_one (by omega)).2 ⟨rfl, by rw [hb]⟩
  have hlast := hoctet (m := n % 64 + 0x80) (by omega)
  by_cases h₂ : n < 0x800
  · have hb := hoctet (m := n / 64 + 0xc0) (by omega)
    refine ⟨_, _, encodeChar_two hn (by omega) h₂, fun rest => ?_⟩
    refine (head_eq_ok_iff_two (by omega) (by omega)).2 ⟨_, rfl, by omega, congrArg Char.ofNat ?_⟩
    omega
  have hmiddle := hoctet (m := n / 64 % 64 + 0x80) (by omega)
  by_cases h₃ : n < 0x10000
  · have hb := hoctet (m := n / 4096 + 0xe0) (by omega)
    refine ⟨_, _, encodeChar_three hn (by omega) h₃, fun rest => ?_⟩
    refine (head_eq_ok_iff_three (by omega) (by omega)).2
      ⟨_, _, rfl, by omega, by omega, congrArg Char.ofNat ?_⟩
    omega
  · have hb := hoctet (m := n / 262144 + 0xf0) (by omega)
    have hd := hoctet (m := n / 4096 % 64 + 0x80) (by omega)
    refine ⟨_, _, encodeChar_four hn (by omega) (by omega), fun rest => ?_⟩
    refine (head_eq_ok_iff_four (by omega) (by omega)).2
      ⟨_, _, _, rfl, by omega, by omega, by omega, congrArg Char.ofNat ?_⟩
    omega

theorem head_eq_ok_iff :
    head b bs = .ok (c, rest) ↔ b :: bs = String.utf8EncodeChar c ++ rest := by
  refine ⟨eq_encodeChar_append, fun h => ?_⟩
  obtain ⟨b', bs', hchar, hhead⟩ := head_encodeChar c
  rw [hchar] at h
  cases h
  exact hhead rest

/-! ### Texts -/

theorem encode_cons (c : Char) (s : List Char) :
    encode (c :: s) = String.utf8EncodeChar c ++ encode s :=
  List.flatMap_cons

theorem encode_append (s t : List Char) : encode (s ++ t) = encode s ++ encode t :=
  List.flatMap_append

theorem length_encode_cons (c : Char) (s : List Char) :
    (encode (c :: s)).length = c.utf8Size + (encode s).length := by
  rw [encode_cons, List.length_append, String.length_utf8EncodeChar]

/-- What starts with a character is the form of a text that starts with it. -/
theorem cons_eq_encode_iff {s : List Char} :
    b :: bs = encode s ↔
      ∃ c rest s', head b bs = .ok (c, rest) ∧ s = c :: s' ∧ rest = encode s' := by
  cases s with
  | nil => exact ⟨nofun, nofun⟩
  | cons c s =>
    rw [encode_cons]
    constructor
    · intro h
      exact ⟨c, encode s, s, head_eq_ok_iff.2 h, rfl, rfl⟩
    · rintro ⟨c, rest, s', hhead, heq, rfl⟩
      cases heq
      exact head_eq_ok_iff.1 hhead

theorem decodeFrom_eq_ok_iff {seen : Nat} {bs : Bytes} {s : List Char} :
    decodeFrom seen bs = .ok s ↔ bs = encode s := by
  fun_induction decodeFrom seen bs generalizing s with
  | case1 seen =>
    cases s with
    | nil => exact ⟨fun _ => rfl, fun _ => rfl⟩
    | cons c s =>
      obtain ⟨b, bs, hchar, -⟩ := head_encodeChar c
      rw [encode_cons, hchar]
      exact ⟨nofun, nofun⟩
  | case2 seen b bs badLength hhead =>
    rw [cons_eq_encode_iff]
    refine ⟨nofun, ?_⟩
    rintro ⟨c, rest, s', hhead', -, -⟩
    cases hhead.symm.trans hhead'
  | case3 seen b bs c rest hhead hlength e hrest ih =>
    rw [cons_eq_encode_iff]
    refine ⟨nofun, ?_⟩
    -- The fault is in what follows the first character.
    rintro ⟨c', rest', s', hhead', -, hencode⟩
    cases hhead.symm.trans hhead'
    cases hrest.symm.trans (ih.2 hencode)
  | case4 seen b bs c rest hhead hlength cs hrest ih =>
    rw [cons_eq_encode_iff]
    constructor
    · intro h
      cases h
      exact ⟨c, rest, cs, hhead, rfl, ih.1 hrest⟩
    · rintro ⟨c', rest', s', hhead', rfl, hencode⟩
      cases hhead.symm.trans hhead'
      cases hrest.symm.trans (ih.2 hencode)
      rfl

/-- **UTF-8 is what texts are written as**, and it is read as the text that it was written
from. -/
theorem decode_eq_ok_iff {bs : Bytes} {s : List Char} : decode bs = .ok s ↔ bs = encode s :=
  decodeFrom_eq_ok_iff

theorem decode_encode (s : List Char) : decode (encode s) = .ok s :=
  decode_eq_ok_iff.2 rfl

theorem encode_injective : Function.Injective encode := by
  intro s t h
  have hs := decode_encode s
  rw [h, decode_encode] at hs
  exact (Except.ok.inj hs).symm

end WebSocket.Text.Utf8
