/-
WebSocket/Proofs/Text/Quoted.lean

Splitting a list at its delimiters gives back the elements that it was made of.

An element may hold delimiters inside its quoted strings.  What matters is where each of its
characters stands, so `Spans` follows a text from one place to another: it does not meet a
delimiter outside of quotes, and where it ends outside of quotes, the next delimiter ends the
element.  That elements are trimmed makes no difference to those that start and end with a
character that is not blank (`Solid`).

Elements need not lead out of their quotes one by one: it is enough that delimiters keep them
apart (`KeptApart`).  That they do is seen from what is read, as trimming, quoting and reading
quotes leave all other characters alone, so that delimiters can be counted (`cut_of_count`).
-/
import WebSocket.Text.Quoted
import WebSocket.Proofs.Parts

namespace WebSocket.Text

/-! ### Trimming -/

/-- A text that starts and ends with a character that is not blank. -/
def Solid (s : List Char) : Prop :=
  (∃ c, s.head? = some c ∧ ¬isBlank c) ∧ ∃ c, s.getLast? = some c ∧ ¬isBlank c

namespace Solid

variable {s t : List Char}

theorem ne_nil (h : Solid s) : s ≠ [] := by
  rintro rfl
  obtain ⟨⟨c, hc, -⟩, -⟩ := h
  cases hc

theorem trimStart_eq (h : Solid s) : trimStart s = s := by
  obtain ⟨⟨c, hc, hblank⟩, -⟩ := h
  obtain ⟨s, rfl⟩ := List.head?_eq_some_iff.1 hc
  exact List.dropWhile_cons_of_neg hblank

theorem trim_eq (h : Solid s) : trim s = s := by
  rw [trim, h.trimStart_eq, trimEnd]
  obtain ⟨-, c, hc, hblank⟩ := h
  obtain ⟨s, rfl⟩ := List.getLast?_eq_some_iff.1 hc
  rw [List.reverse_append, List.reverse_singleton, List.singleton_append,
    List.dropWhile_cons_of_neg hblank, List.reverse_cons, List.reverse_reverse]

/-- What stands between the ends makes no difference. -/
theorem append (hs : Solid s) (middle : List Char) (ht : Solid t) : Solid (s ++ middle ++ t) := by
  obtain ⟨⟨c, hc, hblank⟩, -⟩ := hs
  obtain ⟨-, d, hd, hblank'⟩ := ht
  obtain ⟨s, rfl⟩ := List.head?_eq_some_iff.1 hc
  obtain ⟨t, rfl⟩ := List.getLast?_eq_some_iff.1 hd
  refine ⟨⟨c, rfl, hblank⟩, d, ?_, hblank'⟩
  rw [← List.append_assoc, List.getLast?_concat]

theorem of_forall (hs : s ≠ []) (h : ∀ c ∈ s, ¬isBlank c) : Solid s :=
  ⟨⟨s.head hs, List.head?_eq_some_head hs, h _ (List.head_mem hs)⟩,
    ⟨s.getLast hs, List.getLast?_eq_some_getLast hs, h _ (List.getLast_mem hs)⟩⟩

end Solid

theorem trim_cons_of_blank {c : Char} (hc : isBlank c) (s : List Char) :
    trim (c :: s) = trim s := by
  rw [trim, trimStart, List.dropWhile_cons_of_pos hc]
  rfl

theorem isPrefix_trimEnd (s : List Char) : trimEnd s <+: s := by
  unfold trimEnd
  rw [← List.reverse_suffix, List.reverse_reverse]
  exact List.dropWhile_suffix _

theorem head?_trim {s : List Char} (h : trim s ≠ []) : (trim s).head? = (trimStart s).head? := by
  obtain ⟨t, ht⟩ := isPrefix_trimEnd (trimStart s)
  rw [← ht, List.head?_append, ← trim, List.head?_eq_some_head h, Option.some_or]

/-- What is left by trimming starts and ends with a character that is not blank. -/
theorem solid_trim {s : List Char} (h : trim s ≠ []) : Solid (trim s) := by
  have hstart : trimStart s ≠ [] := (isPrefix_trimEnd (trimStart s)).ne_nil h
  have hend : (trimStart s).reverse.dropWhile isBlank ≠ [] :=
    fun hnil => h (by rw [trim, trimEnd, hnil, List.reverse_nil])
  constructor
  · rw [head?_trim h, List.head?_eq_some_head hstart]
    exact ⟨_, rfl, Bool.eq_false_iff.1 (List.head_dropWhile_not isBlank hstart)⟩
  · refine ⟨_, ?_, Bool.eq_false_iff.1 (List.head_dropWhile_not isBlank hend)⟩
    rw [trim, trimEnd, List.getLast?_reverse, List.head?_eq_some_head hend]

theorem trim_trim (s : List Char) : trim (trim s) = trim s := by
  by_cases h : trim s = []
  · rw [h]
    rfl
  · exact (solid_trim h).trim_eq

theorem count_dropWhile_isBlank {c : Char} (hc : ¬isBlank c) (s : List Char) :
    (s.dropWhile isBlank).count c = s.count c := by
  induction s with
  | nil => rfl
  | cons d s ih =>
    by_cases hd : isBlank d
    · have hne : d ≠ c := by
        rintro rfl
        exact hc hd
      rw [List.dropWhile_cons_of_pos hd, ih, List.count_cons_of_ne hne]
    · rw [List.dropWhile_cons_of_neg hd]

/-- Only blanks are trimmed. -/
theorem count_trim {c : Char} (hc : ¬isBlank c) (s : List Char) :
    (trim s).count c = s.count c := by
  rw [trim, trimEnd, List.count_reverse, count_dropWhile_isBlank hc, List.count_reverse,
    trimStart, count_dropWhile_isBlank hc]

theorem trim_ne_nil {c : Char} (hc : ¬isBlank c) {s : List Char} (h : c ∈ s) : trim s ≠ [] := by
  intro hnil
  have hcount := count_trim hc s
  rw [hnil, List.count_nil] at hcount
  exact absurd (List.count_pos_iff.2 h) (by omega)

/-- Where nothing is left by trimming, there were only blanks. -/
theorem trimStart_append_of_trim {s : List Char} (h : trim s = []) {c : Char} (hc : ¬isBlank c)
    (t : List Char) : trimStart (s ++ c :: t) = c :: t := by
  have hall : ∀ d ∈ s, isBlank d := by
    intro d hd
    by_contra hblank
    exact trim_ne_nil hblank hd h
  exact dropWhile_append_cons hall hc t

/-! ### Tokens -/

theorem toNat_of_isTokenChar {c : Char} (h : Http.isTokenChar c) :
    0x21 ≤ c.toNat ∧ c.toNat < 0x7f := by
  rw [Http.isTokenChar, Bool.or_eq_true, List.contains_iff_mem] at h
  rcases h with h | h
  · unfold Char.isAlphanum Char.isAlpha Char.isUpper Char.isLower Char.isDigit at h
    simp only [Bool.or_eq_true, Bool.and_eq_true, decide_eq_true_eq, ge_iff_le,
      UInt32.le_iff_toNat_le, Char.reduceVal, UInt32.reduceToNat] at h
    show _ ≤ c.val.toNat ∧ c.val.toNat < _
    omega
  · -- The other characters are so few that each is looked at.
    have hc := (List.all_eq_true (p := fun c => 0x21 ≤ c.toNat && c.toNat < 0x7f)).1 (by decide) c h
    rwa [Bool.and_eq_true, decide_eq_true_eq, decide_eq_true_eq] at hc

theorem not_isBlank_of_isTokenChar {c : Char} (h : Http.isTokenChar c) : ¬isBlank c := by
  have hrange := toNat_of_isTokenChar h
  simp only [isBlank, blankRanges, List.any_cons, List.any_nil, Bool.or_eq_true, Bool.and_eq_true,
    decide_eq_true_eq, Bool.false_eq_true, or_false]
  omega

theorem ne_of_isTokenChar {c d : Char} (h : Http.isTokenChar c) (hd : ¬Http.isTokenChar d) :
    c ≠ d := by
  rintro rfl
  exact hd h

theorem isToken_iff {s : List Char} :
    Http.isToken s ↔ s ≠ [] ∧ ∀ c ∈ s, Http.isTokenChar c := by
  rw [Http.isToken, Bool.and_eq_true, List.all_eq_true, Bool.not_eq_true',
    List.isEmpty_eq_false_iff]

theorem solid_of_isToken {s : List Char} (h : Http.isToken s) : Solid s := by
  obtain ⟨hs, hall⟩ := isToken_iff.1 h
  exact .of_forall hs fun c hc => not_isBlank_of_isTokenChar (hall c hc)

namespace Quoted

/-! ### Where the characters of a text stand -/

/-- A text leads from one place to another, and in between there is no delimiter outside of
quotes. -/
inductive Spans (delim : Char) : Place → List Char → Place → Prop where
  | nil (p : Place) : Spans delim p [] p
  | cons {p q : Place} {c : Char} {s : List Char} (hc : ¬(p = .outside ∧ c = delim ∧ c ≠ '"'))
      (hs : Spans delim (p.next c) s q) : Spans delim p (c :: s) q

namespace Spans

variable {delim : Char} {p q r : Place} {s t : List Char}

theorem append (hs : Spans delim p s q) (ht : Spans delim q t r) : Spans delim p (s ++ t) r := by
  induction hs with
  | nil => exact ht
  | cons hc hs ih => exact .cons hc (ih ht)

/-- A text with neither quotes nor delimiters. -/
theorem of_plain (h : ∀ c ∈ s, c ≠ delim ∧ c ≠ '"') : Spans delim .outside s .outside := by
  induction s with
  | nil => exact .nil _
  | cons c s ih =>
    obtain ⟨⟨hdelim, hquote⟩, hs⟩ := List.forall_mem_cons.1 h
    refine .cons (fun hc => hdelim hc.2.1) ?_
    rw [Place.next, if_neg hquote]
    exact ih hs

/-- Inside of quotes an escaped text does not end them. -/
theorem escape (delim : Char) (s : List Char) : Spans delim .inside (escape s) .inside := by
  induction s with
  | nil => exact .nil _
  | cons c s ih =>
    rw [Quoted.escape, List.flatMap_cons]
    refine append ?_ ih
    by_cases hc : isSpecial c
    · rw [if_pos hc]
      exact .cons (fun h => by cases h.1) (.cons (fun h => by cases h.1) (.nil _))
    · rw [if_neg hc]
      have hquote : c ≠ '"' := by
        rintro rfl
        exact hc rfl
      have hback : c ≠ '\\' := by
        rintro rfl
        exact hc rfl
      refine .cons (fun h => by cases h.1) ?_
      rw [Place.next, if_neg hquote, if_neg hback]
      exact .nil _

theorem cut_eq (h : Spans delim p s q) : cut delim p s = (s, []) := by
  induction h with
  | nil => rw [cut]
  | cons hc hs ih => rw [cut, if_neg hc, ih]

/-- A delimiter ends a text that leads out of quotes. -/
theorem cut_append (h : Spans delim p s .outside) (hdelim : delim ≠ '"') (t : List Char) :
    cut delim p (s ++ delim :: t) = (s, t) := by
  generalize hq : Place.outside = q at h
  induction h with
  | nil =>
    rw [List.nil_append, cut, if_pos ⟨hq.symm, rfl, hdelim⟩]
  | cons hc hs ih => rw [List.cons_append, cut, if_neg hc, ih hq]

end Spans

/-! ### Splitting -/

theorem split_of_cut {delim : Char} {s element rest : List Char}
    (h : cut delim .outside s = (element, rest)) (hne : trim element ≠ []) :
    split delim s = trim element :: split delim rest := by
  cases s with
  | nil =>
    rw [cut] at h
    cases h
    exact absurd rfl hne
  | cons c s =>
    rw [split, h]
    exact if_neg fun hempty => hne (List.isEmpty_iff.1 hempty)

/-- A text is cut at the first delimiter that stands outside of quotes, if there is one. -/
theorem exists_spans_cut (delim : Char) (p : Place) (s : List Char) :
    (∃ q, Spans delim p s q ∧ cut delim p s = (s, []))
      ∨ ∃ front back, s = front ++ delim :: back ∧ Spans delim p front .outside
        ∧ cut delim p s = (front, back) := by
  fun_induction cut delim p s with
  | case1 p => exact .inl ⟨p, .nil p, rfl⟩
  | case2 p c s h =>
    obtain ⟨rfl, rfl, -⟩ := h
    exact .inr ⟨[], s, rfl, .nil _, rfl⟩
  | case3 p c s h r ih =>
    rcases ih with ⟨q, hs, hr⟩ | ⟨front, back, hs, hfront, hr⟩
    · exact .inl ⟨q, .cons h hs, by rw [show r = (s, []) from hr]⟩
    · exact .inr ⟨c :: front, back, by rw [hs]; rfl, .cons h hfront,
        by rw [show r = (front, back) from hr]⟩

/-- What holds of a text without a delimiter outside of quotes, and carries over from what is
behind the first of them, holds of all texts. -/
theorem cut_induction (delim : Char) {motive : List Char → Prop}
    (whole : ∀ s q, Spans delim .outside s q → cut delim .outside s = (s, []) → motive s)
    (parts : ∀ front back, Spans delim .outside front .outside →
      cut delim .outside (front ++ delim :: back) = (front, back) → motive back →
      motive (front ++ delim :: back)) (s : List Char) : motive s := by
  induction hlength : s.length using Nat.strong_induction_on generalizing s with
  | h n ih =>
    rcases exists_spans_cut delim .outside s with ⟨q, hs, hcut⟩ | ⟨front, back, rfl, hfront, hcut⟩
    · exact whole s q hs hcut
    · refine parts front back hfront hcut (ih _ ?_ back rfl)
      rw [← hlength, List.length_append, List.length_cons]
      omega

/-- Texts that delimiters keep apart: in none of them there is a delimiter outside of quotes,
and all but the last lead out of their quotes. -/
inductive KeptApart (delim : Char) : List (List Char) → Prop
  | last {s : List Char} {q : Place} (hs : Spans delim .outside s q) : KeptApart delim [s]
  | cons {s t : List Char} {others : List (List Char)} (hs : Spans delim .outside s .outside)
      (h : KeptApart delim (t :: others)) : KeptApart delim (s :: t :: others)

/-- Two texts with the same continuation up to a delimiter are equal, if as many delimiters are
in both. -/
theorem eq_of_append_eq {delim : Char} {s t u v : List Char} (h : s ++ u = t ++ v)
    (hu : u = [] ∨ u.head? = some delim) (hv : v = [] ∨ v.head? = some delim)
    (hcount : s.count delim = t.count delim) : s = t ∧ u = v := by
  -- If one of them goes on where the other one ends, it does so with a delimiter.
  have hnil {a b : List Char} (hb : a ++ b = [] ∨ (a ++ b).head? = some delim)
      (ha : a.count delim = 0) : a = [] := by
    cases a with
    | nil => rfl
    | cons c a =>
      rcases hb with hb | hb
      · cases hb
      · obtain rfl : c = delim := Option.some.inj hb
        simp at ha
  rcases List.append_eq_append_iff.1 h with ⟨a, rfl, rfl⟩ | ⟨a, rfl, rfl⟩
  · rw [List.count_append] at hcount
    obtain rfl := hnil hu (by omega)
    exact ⟨(List.append_nil _).symm, rfl⟩
  · rw [List.count_append] at hcount
    obtain rfl := hnil hv (by omega)
    exact ⟨List.append_nil _, rfl⟩

/-- Where a text goes on with a delimiter, or not at all, and the cut leaves as many delimiters in
front of it as are in the text, it is made right behind the text. -/
theorem cut_of_count {delim : Char} {s u : List Char} (hu : u = [] ∨ u.head? = some delim)
    (hcount : (cut delim .outside (s ++ u)).1.count delim = s.count delim) :
    (cut delim .outside (s ++ u)).1 = s
      ∧ ((u = [] ∧ ∃ q, Spans delim .outside s q)
        ∨ u = delim :: (cut delim .outside (s ++ u)).2 ∧ Spans delim .outside s .outside) := by
  rcases exists_spans_cut delim .outside (s ++ u) with ⟨q, hs, hcut⟩ | ⟨front, back, hs, hfront, hcut⟩
  · rw [hcut] at hcount ⊢
    obtain ⟨heq, rfl⟩ := eq_of_append_eq (List.append_nil (s ++ u)).symm hu (.inl rfl) hcount.symm
    rw [List.append_nil] at hs ⊢
    exact ⟨rfl, .inl ⟨rfl, q, hs⟩⟩
  · rw [hcut] at hcount ⊢
    obtain ⟨rfl, rfl⟩ := eq_of_append_eq hs hu (.inr rfl) hcount.symm
    exact ⟨rfl, .inr ⟨rfl, hfront⟩⟩

theorem KeptApart.exists_spans {delim : Char} {s : List Char} {others : List (List Char)}
    (h : KeptApart delim (s :: others)) : ∃ q, Spans delim .outside s q := by
  cases h with
  | last hs => exact ⟨_, hs⟩
  | cons hs => exact ⟨_, hs⟩

theorem KeptApart.space {delim : Char} (hspace : delim ≠ ' ') {s : List Char}
    {others : List (List Char)} (h : KeptApart delim (s :: others)) :
    KeptApart delim ((' ' :: s) :: others) := by
  have hnot : ¬(Place.outside = .outside ∧ ' ' = delim ∧ ' ' ≠ '"') := fun hc => hspace hc.2.1.symm
  cases h with
  | last hs => exact .last (.cons hnot hs)
  | cons hs h => exact .cons (.cons hnot hs) h

/-- Texts that delimiters keep apart are found again, where there is a space behind each of
the delimiters. -/
theorem split_of_keptApart {delim : Char} (hquote : delim ≠ '"') (hspace : delim ≠ ' ')
    {first : List Char} {others : List (List Char)} (h : KeptApart delim (first :: others))
    (hne : trim first ≠ []) (hothers : ∀ s ∈ others, Solid s) :
    split delim (first ++ others.flatMap fun s => [delim, ' '] ++ s) = trim first :: others := by
  induction others generalizing first with
  | nil =>
    cases h with
    | last hs => rw [List.flatMap_nil, List.append_nil, split_of_cut hs.cut_eq hne, split]
  | cons s others ih =>
    obtain ⟨hs, hothers⟩ := List.forall_mem_cons.1 hothers
    cases h with
    | cons hfirst h =>
      -- The space in front of the next text is trimmed away.
      have htrim : trim (' ' :: s) = s := by
        rw [trim_cons_of_blank (by decide), hs.trim_eq]
      have hrest := ih (h.space hspace) (by rw [htrim]; exact hs.ne_nil) hothers
      rw [htrim] at hrest
      rw [List.flatMap_cons, List.append_assoc]
      show split delim (first ++ delim :: (' ' :: s ++ _)) = _
      rw [split_of_cut (hfirst.cut_append hquote _) hne, hrest]

/-- The first element ends at the first cut, unless there is nothing but blanks in front of it. -/
theorem cut_of_split {delim : Char} (hblank : ¬isBlank delim) {s first : List Char}
    {parts : List (List Char)} (h : split delim s = first :: parts)
    (hstart : (trimStart s).head? ≠ some delim) :
    first = trim (cut delim .outside s).1 ∧ parts = split delim (cut delim .outside s).2 := by
  have hne : trim (cut delim .outside s).1 ≠ [] := by
    intro hnil
    rcases exists_spans_cut delim .outside s with ⟨q, -, hcut⟩ | ⟨front, back, rfl, -, hcut⟩
    · -- Then there would be no element at all.
      rw [hcut] at hnil
      have hall : split delim s = [] := by
        cases s with
        | nil => rw [split]
        | cons c s =>
          rw [split, hcut]
          show (if (trim (c :: s)).isEmpty then split delim [] else _) = []
          rw [hnil]
          exact (if_pos rfl).trans (by rw [split])
      rw [hall] at h
      cases h
    · rw [hcut] at hnil
      rw [trimStart_append_of_trim hnil hblank, List.head?_cons] at hstart
      exact hstart rfl
  rw [split_of_cut rfl hne] at h
  obtain ⟨rfl, rfl⟩ := List.cons.inj h
  exact ⟨rfl, rfl⟩

/-- Blanks lead nowhere, so a text without a delimiter outside of quotes does not start with one
when it is trimmed. -/
theorem Spans.head?_trimStart {delim : Char} {s : List Char} {q : Place} (hquote : delim ≠ '"')
    (h : Spans delim .outside s q) : (trimStart s).head? ≠ some delim := by
  induction s with
  | nil => exact nofun
  | cons c s ih =>
    cases h with
    | cons hc hs =>
      by_cases hblank : isBlank c
      · have hnot : c ≠ '"' := by
          rintro rfl
          exact absurd hblank (by decide)
        rw [Place.next, if_neg hnot] at hs
        rw [trimStart, List.dropWhile_cons_of_pos hblank]
        exact ih hs
      · rw [trimStart, List.dropWhile_cons_of_neg hblank, List.head?_cons]
        intro heq
        obtain rfl := Option.some.inj heq
        exact hc ⟨rfl, rfl, hquote⟩

/-- The elements of a list are trimmed, and do not start with a delimiter. -/
theorem solid_of_mem_split {delim : Char} (hquote : delim ≠ '"') {s t : List Char}
    (h : s ∈ split delim t) : Solid s ∧ s.head? ≠ some delim := by
  fun_induction split delim t with
  | case1 => cases h
  | case2 c t r element others hempty ih => exact ih h
  | case3 c t r element others hne ih =>
    rcases List.mem_cons.1 h with rfl | h
    · have htrim : trim r.1 ≠ [] := fun hnil => hne (List.isEmpty_iff.2 hnil)
      refine ⟨solid_trim htrim, ?_⟩
      rw [show element = trim r.1 from rfl, head?_trim htrim]
      rcases exists_spans_cut delim .outside (c :: t) with ⟨q, hs, hcut⟩ | ⟨_, _, _, hs, hcut⟩
      · rw [show r.1 = c :: t from congrArg Prod.fst hcut]
        exact hs.head?_trimStart hquote
      · rw [show r.1 = _ from congrArg Prod.fst hcut]
        exact hs.head?_trimStart hquote
    · exact ih h

/-- A text that can be an element: it leads out of its quotes without a delimiter, and trimming
does not change it. -/
structure Element (delim : Char) (s : List Char) : Prop where
  spans : Spans delim .outside s .outside
  solid : Solid s

theorem element_of_isToken {delim : Char} (hdelim : ¬Http.isTokenChar delim) {s : List Char}
    (h : Http.isToken s) : Element delim s := by
  obtain ⟨-, hall⟩ := isToken_iff.1 h
  refine ⟨.of_plain fun c hc => ⟨?_, ?_⟩, solid_of_isToken h⟩
  · exact ne_of_isTokenChar (hall c hc) hdelim
  · exact ne_of_isTokenChar (hall c hc) (by decide)

theorem Element.keptApart {delim : Char} {first : List Char} {others : List (List Char)}
    (hfirst : Element delim first) (hothers : ∀ s ∈ others, Element delim s) :
    KeptApart delim (first :: others) := by
  induction others generalizing first with
  | nil => exact .last hfirst.spans
  | cons s others ih =>
    obtain ⟨hs, hothers⟩ := List.forall_mem_cons.1 hothers
    exact .cons hfirst.spans (ih hs hothers)

/-- **The elements of a list are found again**, where they are written with a delimiter and a
space in between. -/
theorem split_separated {delim : Char} (hquote : delim ≠ '"') (hspace : delim ≠ ' ')
    {first : List Char} {others : List (List Char)} (hfirst : Element delim first)
    (hothers : ∀ s ∈ others, Element delim s) :
    split delim (first ++ others.flatMap fun s => [delim, ' '] ++ s) = first :: others := by
  have htrim := hfirst.solid.trim_eq
  have hne : trim first ≠ [] := by
    rw [htrim]
    exact hfirst.solid.ne_nil
  have hsplit := split_of_keptApart hquote hspace (hfirst.keptApart hothers) hne
    fun s hs => (hothers s hs).solid
  rw [hsplit, htrim]

/-! ### Quoting -/

theorem solid_quoted (s : List Char) : Solid ('"' :: s ++ ['"']) := by
  have hquote : Solid ['"'] :=
    .of_forall (List.cons_ne_nil _ _) (List.forall_mem_singleton.2 (by decide))
  exact hquote.append s hquote

/-- A value as it is written is an element, whatever it holds. -/
theorem element_quoteIfNeeded {delim : Char} (hdelim : ¬Http.isTokenChar delim) (s : List Char) :
    Element delim (quoteIfNeeded s) := by
  unfold quoteIfNeeded
  split
  next h => exact element_of_isToken hdelim h
  next =>
    have hopen : Spans delim .outside ['"'] .inside := .cons (fun hc => hc.2.2 rfl) (.nil _)
    have hclose : Spans delim .inside ['"'] .outside := .cons (fun hc => hc.2.2 rfl) (.nil _)
    exact ⟨(hopen.append (.escape delim s)).append hclose, solid_quoted _⟩

theorem unquote_of_isToken {s : List Char} (h : Http.isToken s) : unquote s = s := by
  rw [unquote, (solid_of_isToken h).trim_eq]
  obtain ⟨-, hall⟩ := isToken_iff.1 h
  split
  next inner => exact absurd (hall '"' List.mem_cons_self) (by decide)
  next => rfl

/-- **A value is read as it was**, whether it is quoted or not. -/
theorem unquote_quoteIfNeeded (s : List Char) : unquote (quoteIfNeeded s) = s := by
  unfold quoteIfNeeded
  split
  next h => exact unquote_of_isToken h
  next =>
    rw [unquote, (solid_quoted _).trim_eq]
    show (if (escape s ++ ['"']).getLast? == some '"'
      then unescape (escape s ++ ['"']).dropLast else _) = s
    rw [List.getLast?_concat, if_pos (beq_self_eq_true _), List.dropLast_concat, unescape_escape]

/-! ### Characters that are kept -/

section

variable {c : Char} (hquote : c ≠ '"') (hback : c ≠ '\\')

include hback in
theorem count_unescape (s : List Char) : (unescape s).count c = s.count c := by
  fun_induction unescape s with
  | case1 => rfl
  | case2 => simp [hback.symm]
  | case3 d s ih => rw [List.count_cons, List.count_cons_of_ne hback.symm, List.count_cons, ih]
  | case4 d s _ _ ih => rw [List.count_cons, List.count_cons, ih]

include hquote hback

theorem count_quoteIfNeeded (s : List Char) : (quoteIfNeeded s).count c = s.count c := by
  have hescape : (escape s).count c = s.count c := by
    rw [← count_unescape hback, unescape_escape]
  unfold quoteIfNeeded
  split
  · rfl
  · simp [hquote.symm, hescape]

/-- Neither trimming nor taking off quotes loses anything but blanks, quotes and backslashes. -/
theorem count_unquote (hblank : ¬isBlank c) (s : List Char) :
    (unquote s).count c = s.count c := by
  rw [← count_trim hblank s]
  unfold unquote
  split
  · next inner h =>
    rw [h, List.count_cons_of_ne hquote.symm]
    split
    · next hlast =>
      rw [beq_iff_eq] at hlast
      obtain ⟨front, rfl⟩ := List.getLast?_eq_some_iff.1 hlast
      rw [List.dropLast_concat, count_unescape hback, List.count_append,
        List.count_singleton]
      simp [hquote.symm]
    · rw [List.count_cons_of_ne hquote.symm]
  · rfl

end

theorem unquote_trim (s : List Char) : unquote (trim s) = unquote s := by
  unfold unquote
  rw [trim_trim]

theorem length_unescape_le (s : List Char) : (unescape s).length ≤ s.length := by
  fun_induction unescape s with
  | case1 => exact Nat.le_refl _
  | case2 => exact Nat.zero_le _
  | case3 c s ih => exact Nat.succ_le_succ (Nat.le_succ_of_le ih)
  | case4 c s _ _ ih => exact Nat.succ_le_succ ih

/-- A text that is not changed by taking off quotes has no blanks at its ends. -/
theorem solid_of_unquote {s : List Char} (h : unquote s = s) (hne : s ≠ []) : Solid s := by
  have htrim : trim s = s := by
    unfold unquote at h
    split at h
    · next inner heq =>
      split at h
      · -- Without its quotes the text would be shorter.
        have hlength : (trim s).length ≤ s.length :=
          (isPrefix_trimEnd _).length_le.trans (List.dropWhile_suffix _).length_le
        have hinner := length_unescape_le inner.dropLast
        rw [h, List.length_dropLast] at hinner
        rw [heq, List.length_cons] at hlength
        omega
      · exact heq.trans h
    · exact h
  rw [← htrim]
  apply solid_trim
  rw [htrim]
  exact hne

end Quoted

end WebSocket.Text
