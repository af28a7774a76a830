/-
WebSocket/Proofs/Text/Boundary.lean

Where the characters of a text begin among its octets.

The first octet of a character can be told from the others (`exists_encodeChar_eq`), so the
boundaries that can be seen in the octets are the lengths of the fronts of the text
(`isBoundary_encode_iff`).  A character has at most four octets, so whoever looks for a boundary
from any place backwards finds one within three steps.
-/
import WebSocket.Proofs.Text.Utf8

namespace WebSocket.Text.Utf8

variable {s front : List Char} {n : Nat}

/-- Whether a character begins at this place among the octets of a text, or the text ends. -/
def isBoundary (octets : Bytes) (n : Nat) : Bool :=
  n == 0 || n == octets.length || octets[n]?.any fun b => !isTail b

/-- The last boundary up to a place, looked for step by step backwards.  There is none if it would
take a step in front of the text. -/
def boundaryUpTo? (octets : Bytes) : Nat → Option Nat
  | 0 => if isBoundary octets 0 then some 0 else none
  | n + 1 => if isBoundary octets (n + 1) then some (n + 1) else boundaryUpTo? octets n

/-- The search stops at the first boundary that it meets. -/
theorem boundaryUpTo?_eq_some {octets : Bytes} {m : Nat} (hm : isBoundary octets m) (hle : m ≤ n)
    (hnone : ∀ k, m < k → k ≤ n → isBoundary octets k = false) :
    boundaryUpTo? octets n = some m := by
  induction n with
  | zero =>
    obtain rfl : m = 0 := Nat.le_zero.1 hle
    rw [boundaryUpTo?, if_pos hm]
  | succ n ih =>
    rw [boundaryUpTo?]
    rcases Nat.lt_or_eq_of_le hle with hlt | rfl
    · rw [hnone (n + 1) hlt (Nat.le_refl _), if_neg Bool.false_ne_true]
      exact ih (Nat.le_of_lt_succ hlt) fun k hk hkn => hnone k hk (Nat.le_succ_of_le hkn)
    · rw [if_pos hm]

/-- Of the places that have at most `room` octets in front of them, this is the last at which a
character begins or the text ends. -/
structure IsLastBoundary (octets : Bytes) (room n : Nat) : Prop where
  boundary : isBoundary octets n
  le_room : n ≤ room
  last : ∀ m, isBoundary octets m → m ≤ room → m ≤ n

/-! ### The octets of a character -/

theorem isTail_ofNat {m : Nat} (h : 0x80 ≤ m) (h' : m ≤ 0xbf) : isTail (UInt8.ofNat m) := by
  have hoctet : m < 0x100 := by omega
  rw [isTail_iff, UInt8.toNat_ofNat_of_lt' hoctet]
  exact ⟨h, h'⟩

theorem not_isTail_ofNat {m : Nat} (h : m < 0x80 ∨ 0xbf < m) (h' : m < 0x100) :
    isTail (UInt8.ofNat m) = false := by
  rw [Bool.eq_false_iff, ne_eq, isTail_iff, UInt8.toNat_ofNat_of_lt' h']
  omega

/-- A character has one octet that can only be the first, and up to three others. -/
theorem exists_encodeChar_eq (c : Char) :
    ∃ b bs, String.utf8EncodeChar c = b :: bs ∧ isTail b = false ∧ (∀ t ∈ bs, isTail t)
      ∧ bs.length ≤ 3 := by
  obtain ⟨n, hn, rfl⟩ : ∃ n : Nat, n.isValidChar ∧ Char.ofNat n = c :=
    ⟨c.toNat, c.valid, Char.ofNat_toNat c⟩
  have hvalid : n < 0xd800 ∨ 0xdfff < n ∧ n < 0x110000 := hn
  -- By the number of octets: the first one carries the mark of their number, the others six bits.
  by_cases h₁ : n < 0x80
  · refine ⟨_, _, encodeChar_one hn h₁, not_isTail_ofNat (by omega) (by omega), ?_, by simp⟩
    exact List.forall_mem_nil _
  have hlast : isTail (UInt8.ofNat (n % 64 + 0x80)) := isTail_ofNat (by omega) (by omega)
  by_cases h₂ : n < 0x800
  · refine ⟨_, _, encodeChar_two hn (by omega) h₂, not_isTail_ofNat (by omega) (by omega), ?_,
      by simp⟩
    exact List.forall_mem_singleton.2 hlast
  have hmiddle : isTail (UInt8.ofNat (n / 64 % 64 + 0x80)) := isTail_ofNat (by omega) (by omega)
  by_cases h₃ : n < 0x10000
  · refine ⟨_, _, encodeChar_three hn (by omega) h₃, not_isTail_ofNat (by omega) (by omega), ?_,
      by simp⟩
    exact List.forall_mem_cons.2 ⟨hmiddle, List.forall_mem_singleton.2 hlast⟩
  · have hsecond : isTail (UInt8.ofNat (n / 4096 % 64 + 0x80)) :=
      isTail_ofNat (by omega) (by omega)
    refine ⟨_, _, encodeChar_four hn (by omega) (by omega),
      not_isTail_ofNat (by omega) (by omega), ?_, by simp⟩
    exact List.forall_mem_cons.2
      ⟨hsecond, List.forall_mem_cons.2 ⟨hmiddle, List.forall_mem_singleton.2 hlast⟩⟩

/-! ### The fronts of a text -/

theorem length_encode_le_of_isPrefix (h : front <+: s) :
    (encode front).length ≤ (encode s).length := by
  obtain ⟨t, rfl⟩ := h
  rw [encode_append, List.length_append]
  exact Nat.le_add_right _ _

theorem take_encode_of_isPrefix (h : front <+: s) :
    (encode s).take (encode front).length = encode front := by
  obtain ⟨t, rfl⟩ := h
  rw [encode_append, List.take_left]

/-! ### The boundaries of a text -/

theorem isBoundary_iff {octets : Bytes} :
    isBoundary octets n ↔
      n = 0 ∨ n = octets.length ∨ ∃ b, octets[n]? = some b ∧ isTail b = false := by
  simp only [isBoundary, Bool.or_eq_true, beq_iff_eq, Option.any_eq_true, Bool.not_eq_true',
    or_assoc]

/-- A text begins with the first octet of a character, if it is not empty. -/
theorem isTail_of_getElem?_zero {b : UInt8} (h : (encode s)[0]? = some b) : isTail b = false := by
  cases s with
  | nil => cases h
  | cons c s =>
    obtain ⟨b', bs, hchar, hb, -, -⟩ := exists_encodeChar_eq c
    rw [encode_cons, hchar] at h
    cases h
    exact hb

/-- There is no boundary inside of a character. -/
theorem not_isBoundary_inside {c : Char} (hpos : 0 < n) (hn : n < c.utf8Size) (s : List Char) :
    ¬isBoundary (encode (c :: s)) n := by
  obtain ⟨b, bs, hchar, -, htail, -⟩ := exists_encodeChar_eq c
  rw [← String.length_utf8EncodeChar, hchar, List.length_cons] at hn
  obtain ⟨m, rfl⟩ : ∃ m, n = m + 1 := ⟨n - 1, by omega⟩
  have hm : m < bs.length := Nat.lt_of_succ_lt_succ hn
  rw [isBoundary_iff, encode_cons, hchar, List.length_append, List.length_cons]
  rintro (hzero | hend | ⟨t, ht, hfirst⟩)
  · cases hzero
  · omega
  · rw [List.cons_append, List.getElem?_cons_succ, List.getElem?_append_left hm] at ht
    rw [htail t (List.mem_of_getElem? ht)] at hfirst
    cases hfirst

/-- Behind a character the boundaries are those of what follows it. -/
theorem isBoundary_behind (c : Char) (s : List Char) (n : Nat) :
    isBoundary (encode (c :: s)) (c.utf8Size + n) ↔ isBoundary (encode s) n := by
  have hsize := String.length_utf8EncodeChar c
  have hpos := c.utf8Size_pos
  rw [isBoundary_iff, isBoundary_iff, encode_cons, List.length_append, hsize,
    List.getElem?_append_right (by omega), hsize, Nat.add_sub_cancel_left]
  constructor
  · rintro (hzero | hend | hfirst)
    · omega
    · exact .inr (.inl (by omega))
    · exact .inr (.inr hfirst)
  · rintro (rfl | hend | hfirst)
    · -- The next character begins here, or the text ends.
      rcases h : (encode s)[0]? with - | b
      · have hnil : (encode s).length = 0 := by simpa using h
        exact .inr (.inl (by omega))
      · exact .inr (.inr ⟨b, rfl, isTail_of_getElem?_zero h⟩)
    · exact .inr (.inl (by omega))
    · exact .inr (.inr hfirst)

/-- **The boundaries of a text are the lengths of its fronts.** -/
theorem isBoundary_encode_iff :
    isBoundary (encode s) n ↔ ∃ front, front <+: s ∧ n = (encode front).length := by
  induction s generalizing n with
  | nil => simp [isBoundary, encode]
  | cons c s ih =>
    constructor
    · intro h
      rcases Nat.eq_zero_or_pos n with rfl | hpos
      · exact ⟨[], List.nil_prefix, rfl⟩
      · -- It is not inside of the first character, so it is a boundary of what follows.
        have hle : c.utf8Size ≤ n :=
          Nat.le_of_not_lt fun hlt => not_isBoundary_inside hpos hlt s h
        obtain ⟨m, rfl⟩ := Nat.exists_eq_add_of_le hle
        obtain ⟨front, hfront, rfl⟩ := ih.1 ((isBoundary_behind c s m).1 h)
        exact ⟨c :: front, List.cons_prefix_cons.2 ⟨rfl, hfront⟩, (length_encode_cons c front).symm⟩
    · rintro ⟨front, hfront, rfl⟩
      cases front with
      | nil => exact isBoundary_iff.2 (.inl rfl)
      | cons d front =>
        obtain ⟨rfl, hrest⟩ := List.cons_prefix_cons.1 hfront
        rw [length_encode_cons, isBoundary_behind]
        exact ih.2 ⟨front, hrest, rfl⟩

end WebSocket.Text.Utf8
