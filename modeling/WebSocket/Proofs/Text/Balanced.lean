/-
WebSocket/Proofs/Text/Balanced.lean

Lists that are joined by a delimiter have the elements of both, one after the other.

That is so where each of them closes its quotes (`Balanced`), so that the delimiter between them
stands outside of quotes.  An element is read from fresh quote marks, but as elements only end
outside of quotes, it makes no difference where in the text the reading started.
-/
import WebSocket.Proofs.Text.Quoted

namespace WebSocket.Text.Quoted

variable {delim : Char} {p q : Place} {s t : List Char} {texts : List (List Char)}

/-- A text closes all quotes that it opens. -/
def Balanced (s : List Char) : Prop :=
  s.foldl Place.next .outside = .outside

instance : DecidablePred Balanced :=
  fun s => inferInstanceAs (Decidable (s.foldl Place.next .outside = .outside))

/-- A text leads to one place only. -/
theorem Spans.foldl_next (h : Spans delim p s q) : s.foldl Place.next p = q := by
  induction h with
  | nil => rfl
  | cons hc hs ih => exact ih

/-- What stands behind a delimiter outside of quotes is balanced where the whole text is. -/
theorem Spans.balanced_of_append (h : Spans delim .outside s .outside) (hquote : delim ≠ '"')
    (hbalanced : Balanced (s ++ delim :: t)) : Balanced t := by
  rw [Balanced, List.foldl_append, h.foldl_next, List.foldl_cons, Place.next, if_neg hquote]
    at hbalanced
  exact hbalanced

/-- What is left of an element: it is trimmed, and left out if it is blank. -/
def kept (s : List Char) : List (List Char) :=
  if (trim s).isEmpty then [] else [trim s]

/-- A list is what is kept of the text in front of the first delimiter, and the list behind it. -/
theorem split_eq_of_cut {front back : List Char} (h : cut delim .outside s = (front, back)) :
    split delim s = kept front ++ split delim back := by
  cases s with
  | nil =>
    rw [cut] at h
    cases h
    rw [split]
    rfl
  | cons c s =>
    rw [split, h, kept]
    dsimp only
    split
    · rfl
    · rfl

/-- **The elements of two lists that are joined** by a delimiter are those of the first and those
of the second list. -/
theorem split_append (hquote : delim ≠ '"') (hs : Balanced s) (t : List Char) :
    split delim (s ++ delim :: t) = split delim s ++ split delim t := by
  induction s using cut_induction delim with
  | whole s q hspans hcut =>
    obtain rfl : .outside = q := hs.symm.trans hspans.foldl_next
    rw [split_eq_of_cut (hspans.cut_append hquote t), split_eq_of_cut hcut, split,
      List.append_nil]
  | parts front back hfront hcut ih =>
    rw [List.append_assoc, List.cons_append,
      split_eq_of_cut (hfront.cut_append hquote (back ++ delim :: t)), split_eq_of_cut hcut,
      ih (hfront.balanced_of_append hquote hs), List.append_assoc]

/-- **The elements of several lists that are joined** are those of each of them, in order.  The
last one need not be balanced, as nothing comes behind it. -/
theorem split_intercalate (hquote : delim ≠ '"') (h : ∀ s ∈ texts.dropLast, Balanced s) :
    split delim ([delim].intercalate texts) = texts.flatMap (split delim) := by
  induction texts with
  | nil => rw [List.intercalate_nil, split, List.flatMap_nil]
  | cons s texts ih =>
    cases texts with
    | nil => rw [List.intercalate_singleton, List.flatMap_singleton]
    | cons t texts =>
      rw [List.dropLast_cons_cons, List.forall_mem_cons] at h
      rw [List.intercalate_cons_cons, List.append_assoc, List.singleton_append,
        split_append hquote h.1, ih h.2]
      rfl

/-- Quotes that are still open take the delimiter into an element. -/
example : split ',' ([','].intercalate ["a=\"b".toList, "c\"".toList]) = ["a=\"b,c\"".toList]
    ∧ ["a=\"b".toList, "c\"".toList].flatMap (split ',') = ["a=\"b".toList, "c\"".toList] := by
  decide +kernel

end WebSocket.Text.Quoted
