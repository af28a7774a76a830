/-
WebSocket/Proofs/Text/LineEnds.lean

Texts in lines.

A line ends with a carriage return and a line feed.  A text is `OneLine` if these two
nowhere stand one behind the other; each of them may well occur by itself.  What was put
together of lines and line ends falls into these very lines if each is one line, and into
more if one of them is not (`splitLines_flatMap`, `flatMap_splitLines_eq_iff`).

Whether a text is one line can be told from its parts wherever no line feed stands at the
beginning of a part, or no carriage return at the end of the one in front of it.  Neither
quoting nor UTF-8 makes a difference (`oneLine_quoteIfNeeded`, `oneLine_encode`).
-/
import Mathlib.Data.List.Chain
import WebSocket.Proofs.Text.Utf8
import WebSocket.Text.Quoted

namespace WebSocket.Text

/-! ### Texts without a line end -/

section

variable {α : Type} {cr lf : α}

/-- `cr` and `lf` nowhere stand one behind the other. -/
def OneLine (cr lf : α) (s : List α) : Prop :=
  ¬[cr, lf] <:+: s

theorem oneLine_iff_isChain {s : List α} :
    OneLine cr lf s ↔ s.IsChain fun a b => ¬(a = cr ∧ b = lf) := by
  rw [OneLine, List.isChain_iff_forall_rel_of_append_cons_cons]
  constructor
  · rintro h a b front back rfl ⟨rfl, rfl⟩
    exact h ⟨front, back, by simp⟩
  · rintro h ⟨front, back, rfl⟩
    exact @h cr lf front back (by simp) ⟨rfl, rfl⟩

instance [DecidableEq α] (s : List α) : Decidable (OneLine cr lf s) :=
  decidable_of_iff _ oneLine_iff_isChain.symm

@[simp] theorem oneLine_nil : OneLine cr lf [] :=
  oneLine_iff_isChain.2 .nil

theorem oneLine_cons_iff {a : α} {s : List α} :
    OneLine cr lf (a :: s) ↔ ¬(a = cr ∧ s.head? = some lf) ∧ OneLine cr lf s := by
  rw [oneLine_iff_isChain, oneLine_iff_isChain, List.isChain_cons]
  refine and_congr_left fun _ => ⟨fun h ⟨ha, hb⟩ => h lf hb ⟨ha, rfl⟩, ?_⟩
  rintro h b hb ⟨ha, rfl⟩
  exact h ⟨ha, hb⟩

theorem oneLine_append_iff {s t : List α} :
    OneLine cr lf (s ++ t)
      ↔ OneLine cr lf s ∧ OneLine cr lf t ∧ ¬(s.getLast? = some cr ∧ t.head? = some lf) := by
  rw [oneLine_iff_isChain, oneLine_iff_isChain, oneLine_iff_isChain, List.isChain_append]
  refine and_congr_right fun _ => and_congr_right fun _ => ⟨fun h ⟨hs, ht⟩ => ?_, ?_⟩
  · exact h cr hs lf ht ⟨rfl, rfl⟩
  · rintro h a ha b hb ⟨rfl, rfl⟩
    exact h ⟨ha, hb⟩

/-- A part that does not begin with a line feed. -/
theorem oneLine_append_of_head {s t : List α} (h : t.head? ≠ some lf) :
    OneLine cr lf (s ++ t) ↔ OneLine cr lf s ∧ OneLine cr lf t := by
  simp [oneLine_append_iff, h]

/-- A part behind one that does not end with a carriage return. -/
theorem oneLine_append_of_getLast {s t : List α} (h : s.getLast? ≠ some cr) :
    OneLine cr lf (s ++ t) ↔ OneLine cr lf s ∧ OneLine cr lf t := by
  simp [oneLine_append_iff, h]

theorem oneLine_of_not_mem {s : List α} (h : lf ∉ s) : OneLine cr lf s :=
  fun hs => h (hs.subset (by simp))

/-- A text behind a fixed one without line feed and carriage return. -/
theorem oneLine_append_of_not_mem {s t : List α} (hcr : cr ∉ s) (hlf : lf ∉ s) :
    OneLine cr lf (s ++ t) ↔ OneLine cr lf t := by
  have hlast : s.getLast? ≠ some cr := fun h => hcr (List.mem_of_getLast? h)
  rw [oneLine_append_of_getLast hlast]
  exact and_iff_right (oneLine_of_not_mem hlf)

theorem head?_flatMap_append_ne {front : List α} (hne : front ≠ []) (hlf : lf ∉ front)
    (parts : List (List α)) : (parts.flatMap (front ++ ·)).head? ≠ some lf := by
  obtain ⟨a, front, rfl⟩ := List.exists_cons_of_ne_nil hne
  rcases parts with - | ⟨t, parts⟩
  · exact nofun
  · intro h
    cases h
    exact hlf List.mem_cons_self

/-- Parts with a fixed text in front of each of them. -/
theorem oneLine_flatMap_append {front : List α} (hne : front ≠ []) (hcr : cr ∉ front)
    (hlf : lf ∉ front) {parts : List (List α)} :
    OneLine cr lf (parts.flatMap (front ++ ·)) ↔ ∀ t ∈ parts, OneLine cr lf t := by
  induction parts with
  | nil => simp
  | cons t parts ih =>
    rw [List.flatMap_cons, oneLine_append_of_head (head?_flatMap_append_ne hne hlf parts),
      oneLine_append_of_not_mem hcr hlf, ih, List.forall_mem_cons]

/-- Parts with a fixed text between them. -/
theorem oneLine_append_flatMap {sep : List α} (hne : sep ≠ []) (hcr : cr ∉ sep) (hlf : lf ∉ sep)
    {t : List α} {parts : List (List α)} :
    OneLine cr lf (t ++ parts.flatMap (sep ++ ·))
      ↔ OneLine cr lf t ∧ ∀ u ∈ parts, OneLine cr lf u := by
  rw [oneLine_append_of_head (head?_flatMap_append_ne hne hlf parts),
    oneLine_flatMap_append hne hcr hlf]

end

/-! ### Quoting -/

theorem head?_escape_eq_lf {s : List Char} :
    (Quoted.escape s).head? = some '\n' ↔ s.head? = some '\n' := by
  rcases s with - | ⟨c, s⟩
  · rfl
  · by_cases hc : Quoted.isSpecial c
    · have hne : c ≠ '\n' := by rintro rfl; exact absurd hc (by decide)
      simp [Quoted.escape, hc, hne]
    · simp [Quoted.escape, hc]

theorem oneLine_escape {s : List Char} :
    OneLine '\r' '\n' (Quoted.escape s) ↔ OneLine '\r' '\n' s := by
  induction s with
  | nil => rfl
  | cons c s ih =>
    have hcons : Quoted.escape (c :: s)
        = (if Quoted.isSpecial c then ['\\', c] else [c]) ++ Quoted.escape s := rfl
    rw [oneLine_cons_iff, hcons]
    by_cases hc : Quoted.isSpecial c
    · -- Neither the character nor the backslash in front of it has to do with line ends.
      have hr : c ≠ '\r' := by rintro rfl; exact absurd hc (by decide)
      have hn : c ≠ '\n' := by rintro rfl; exact absurd hc (by decide)
      rw [if_pos hc, oneLine_append_of_not_mem (by simp [Ne.symm hr]) (by simp [Ne.symm hn]), ih]
      simp [hr]
    · rw [if_neg hc, List.singleton_append, oneLine_cons_iff, head?_escape_eq_lf, ih]

theorem oneLine_quoteIfNeeded {s : List Char} :
    OneLine '\r' '\n' (Quoted.quoteIfNeeded s) ↔ OneLine '\r' '\n' s := by
  unfold Quoted.quoteIfNeeded
  split
  · rfl
  · rw [oneLine_append_of_head (by simp), oneLine_cons_iff, oneLine_escape]
    have hquote : OneLine '\r' '\n' ['"'] := oneLine_of_not_mem (by simp)
    simp [hquote]

/-! ### UTF-8 -/

namespace Utf8

/-- A character is written as it is, or with octets beyond ASCII. -/
theorem encodeChar_cases (c : Char) :
    c.toNat < 0x80 ∧ String.utf8EncodeChar c = [UInt8.ofNat c.toNat]
      ∨ 0x80 ≤ c.toNat ∧ ∀ b ∈ String.utf8EncodeChar c, 0x80 ≤ b.toNat := by
  obtain ⟨n, hn, rfl⟩ : ∃ n : Nat, n.isValidChar ∧ Char.ofNat n = c :=
    ⟨c.toNat, c.valid, Char.ofNat_toNat c⟩
  have hvalid : n < 0xd800 ∨ 0xdfff < n ∧ n < 0x110000 := hn
  have hoctet {m : Nat} (hm : 0x80 ≤ m ∧ m < 0x100) : 0x80 ≤ (UInt8.ofNat m).toNat :=
    (UInt8.toNat_ofNat_of_lt' hm.2).symm ▸ hm.1
  rw [toNat_ofNat hn]
  by_cases h₁ : n < 0x80
  · exact .inl ⟨h₁, encodeChar_one hn h₁⟩
  refine .inr ⟨by omega, ?_⟩
  have hlast := hoctet (m := n % 64 + 0x80) (by omega)
  by_cases h₂ : n < 0x800
  · have hb := hoctet (m := n / 64 + 0xc0) (by omega)
    simp only [encodeChar_two hn (by omega) h₂, List.forall_mem_cons]
    exact ⟨hb, hlast, List.forall_mem_nil _⟩
  have hmiddle := hoctet (m := n / 64 % 64 + 0x80) (by omega)
  by_cases h₃ : n < 0x10000
  · have hb := hoctet (m := n / 4096 + 0xe0) (by omega)
    simp only [encodeChar_three hn (by omega) h₃, List.forall_mem_cons]
    exact ⟨hb, hmiddle, hlast, List.forall_mem_nil _⟩
  · have hb := hoctet (m := n / 262144 + 0xf0) (by omega)
    have hd := hoctet (m := n / 4096 % 64 + 0x80) (by omega)
    simp only [encodeChar_four hn (by omega) (by omega), List.forall_mem_cons]
    exact ⟨hb, hd, hmiddle, hlast, List.forall_mem_nil _⟩

theorem ofNat_toNat_eq_iff {c d : Char} (hc : c.toNat < 0x80) (hd : d.toNat < 0x80) :
    UInt8.ofNat c.toNat = UInt8.ofNat d.toNat ↔ c = d := by
  rw [← UInt8.toNat_inj, UInt8.toNat_ofNat_of_lt' (Nat.lt_of_lt_of_le hc (by decide)),
    UInt8.toNat_ofNat_of_lt' (Nat.lt_of_lt_of_le hd (by decide)), Char.toNat_inj]

theorem head?_encode_eq_lf {s : List Char} :
    (encode s).head? = some 0x0a ↔ s.head? = some '\n' := by
  rcases s with - | ⟨c, s⟩
  · exact ⟨nofun, nofun⟩
  rw [encode_cons, List.head?_cons, Option.some_inj]
  obtain ⟨hc, heq⟩ | ⟨hc, hall⟩ := encodeChar_cases c
  · rw [heq, List.singleton_append, List.head?_cons, Option.some_inj]
    exact ofNat_toNat_eq_iff (d := '\n') hc (by decide)
  · have hne : c ≠ '\n' := by rintro rfl; exact absurd hc (by decide)
    obtain ⟨b, bs, hchar, -⟩ := head_encodeChar c
    rw [hchar, List.cons_append, List.head?_cons, Option.some_inj]
    refine ⟨fun h => ?_, fun h => absurd h hne⟩
    exact absurd (hall b (hchar ▸ List.mem_cons_self)) (by rw [h]; decide)

/-- The line ends of a text are those of its octets. -/
theorem oneLine_encode {s : List Char} :
    OneLine 0x0d 0x0a (encode s) ↔ OneLine '\r' '\n' s := by
  induction s with
  | nil => exact ⟨fun _ => oneLine_nil, fun _ => oneLine_nil⟩
  | cons c s ih =>
    rw [encode_cons, oneLine_cons_iff]
    obtain ⟨hc, heq⟩ | ⟨hc, hall⟩ := encodeChar_cases c
    · have hcr : UInt8.ofNat c.toNat = 0x0d ↔ c = '\r' :=
        ofNat_toNat_eq_iff (d := '\r') hc (by decide)
      rw [heq, List.singleton_append, oneLine_cons_iff, head?_encode_eq_lf, hcr, ih]
    · -- Octets beyond ASCII have to do with no line end.
      have hne : c ≠ '\r' := by rintro rfl; exact absurd hc (by decide)
      have hr : (0x0d : UInt8) ∉ String.utf8EncodeChar c := fun h => absurd (hall _ h) (by decide)
      have hn : (0x0a : UInt8) ∉ String.utf8EncodeChar c := fun h => absurd (hall _ h) (by decide)
      rw [oneLine_append_of_not_mem hr hn, ih]
      simp [hne]

end Utf8

/-! ### Lines -/

/-- The end of a line, as octets. -/
abbrev IsLine (line : Bytes) : Prop :=
  OneLine 0x0d 0x0a line

/-- The lines of a text: what is in front of the first line end, between them, and behind the
last one. -/
def splitLines : Bytes → List Bytes
  | [] => [[]]
  | [a] => [[a]]
  | a :: b :: s =>
    if a = 0x0d ∧ b = 0x0a then [] :: splitLines s
    else (splitLines (b :: s)).modifyHead (a :: ·)

theorem splitLines_ne_nil (s : Bytes) : splitLines s ≠ [] := by
  fun_induction splitLines s with
  | case1 | case2 | case3 => exact nofun
  | case4 a b s _ ih => simpa using ih

theorem splitLines_append_lineEnd (s t : Bytes) :
    splitLines (s ++ 0x0d :: 0x0a :: t) = splitLines s ++ splitLines t := by
  fun_induction splitLines s with
  | case1 => rfl
  | case2 a => simp [splitLines]
  | case3 a b s h ih => simp [splitLines, h, ih]
  | case4 a b s h ih =>
    obtain ⟨line, lines, hlines⟩ := List.exists_cons_of_ne_nil (splitLines_ne_nil (b :: s))
    rw [hlines] at ih ⊢
    simp only [List.cons_append, splitLines, if_neg h]
    simp only [List.cons_append] at ih
    rw [ih]
    rfl

theorem splitLines_of_isLine {s : Bytes} (h : IsLine s) : splitLines s = [s] := by
  fun_induction splitLines s with
  | case1 => rfl
  | case2 => rfl
  | case3 a b s hab ih => exact absurd ⟨[], s, by simp [hab]⟩ h
  | case4 a b s _ ih => rw [ih (oneLine_cons_iff.1 h).2, List.modifyHead_cons]

theorem one_lt_length_splitLines {s : Bytes} (h : ¬IsLine s) : 1 < (splitLines s).length := by
  obtain ⟨front, back, rfl⟩ := Classical.not_not.1 h
  have hfront := List.length_pos_iff.2 (splitLines_ne_nil front)
  have hback := List.length_pos_iff.2 (splitLines_ne_nil back)
  rw [List.append_assoc]
  show 1 < (splitLines (front ++ 0x0d :: 0x0a :: back)).length
  rw [splitLines_append_lineEnd, List.length_append]
  omega

theorem eq_of_splitLines_eq_singleton {s line : Bytes} (h : splitLines s = [line]) : s = line := by
  by_cases hs : IsLine s
  · rw [splitLines_of_isLine hs] at h
    exact List.singleton_inj.1 h
  · have hlength := one_lt_length_splitLines hs
    rw [h] at hlength
    exact absurd hlength (Nat.lt_irrefl 1)

/-- What was put together of lines falls into the lines of each of them. -/
theorem splitLines_flatMap (lines : List Bytes) (rest : Bytes) :
    splitLines (lines.flatMap (· ++ [0x0d, 0x0a]) ++ rest)
      = lines.flatMap splitLines ++ splitLines rest := by
  induction lines with
  | nil => rfl
  | cons line lines ih =>
    simp only [List.flatMap_cons, List.append_assoc, List.cons_append, List.nil_append]
    rw [splitLines_append_lineEnd, ih]

theorem length_le_length_flatMap_splitLines (lines : List Bytes) :
    lines.length ≤ (lines.flatMap splitLines).length := by
  induction lines with
  | nil => exact Nat.le_refl 0
  | cons line lines ih =>
    have hline := List.length_pos_iff.2 (splitLines_ne_nil line)
    rw [List.flatMap_cons, List.length_append, List.length_cons]
    omega

/-- These are the lines that it was put together of, exactly if none of them holds a line
end. -/
theorem flatMap_splitLines_eq_iff {lines : List Bytes} :
    lines.flatMap splitLines = lines ↔ ∀ line ∈ lines, IsLine line := by
  constructor
  · intro h
    have hlength := congrArg List.length h
    clear h
    induction lines with
    | nil => exact List.forall_mem_nil _
    | cons line lines ih =>
      have hline := List.length_pos_iff.2 (splitLines_ne_nil line)
      have hlines := length_le_length_flatMap_splitLines lines
      rw [List.flatMap_cons, List.length_append, List.length_cons] at hlength
      refine List.forall_mem_cons.2 ⟨?_, ih (by omega)⟩
      by_contra hnot
      have := one_lt_length_splitLines hnot
      omega
  · intro h
    induction lines with
    | nil => rfl
    | cons line lines ih =>
      obtain ⟨hline, hlines⟩ := List.forall_mem_cons.1 h
      rw [List.flatMap_cons, splitLines_of_isLine hline, ih hlines, List.singleton_append]

end WebSocket.Text
