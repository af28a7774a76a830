/-
WebSocket/Proofs/Text/SingleScan.lean

A list is divided at the delimiters that a single scan of it finds.

`split` reads one element at a time, each from fresh quote marks.  `segments` does not know of
elements: one scan marks each character with the place where it stands (`placed`), and the text is
divided at all delimiters that stand outside of quotes.  Both come to the same, as an element ends
outside of quotes, which is where the next one starts (`segments_append`).

A text that is kept in UTF-8 is cut by counting octets.  The cut is the same as by characters
(`octets_cut`), whatever the delimiter is.
-/
import WebSocket.Proofs.Text.Balanced
import WebSocket.Proofs.Text.Utf8

namespace WebSocket.Text.Quoted

variable {delim : Char} {p q : Place} {s t front back : List Char}

/-! ### One scan -/

/-- The characters of a text, each with the place where it stands. -/
def placed (p : Place) (s : List Char) : List (Char × Place) :=
  s.zip (s.scanl Place.next p)

/-- Whether a character divides a list. -/
def divides (delim : Char) (x : Char × Place) : Bool :=
  x.1 = delim && x.2 = .outside

/-- The text between the delimiters that stand outside of quotes. -/
def segments (delim : Char) (s : List Char) : List (List Char) :=
  ((placed .outside s).splitOnP (divides delim)).map (·.map Prod.fst)

theorem placed_cons (p : Place) (c : Char) (s : List Char) :
    placed p (c :: s) = (c, p) :: placed (p.next c) s := by
  rw [placed, List.scanl_cons, List.zip_cons_cons, placed]

theorem map_fst_placed (p : Place) (s : List Char) : (placed p s).map Prod.fst = s := by
  induction s generalizing p with
  | nil => rfl
  | cons c s ih => rw [placed_cons, List.map_cons, ih]

theorem placed_append (p : Place) (s t : List Char) :
    placed p (s ++ t) = placed p s ++ placed (s.foldl Place.next p) t := by
  induction s generalizing p with
  | nil => rfl
  | cons c s ih => rw [List.cons_append, placed_cons, placed_cons, ih]; rfl

/-- The scan finds no delimiter where the text spans from one place to another. -/
theorem Spans.not_divides (h : Spans delim p s q) (hquote : delim ≠ '"') :
    ∀ x ∈ placed p s, divides delim x = false := by
  induction h with
  | nil p => exact List.forall_mem_nil _
  | @cons p q c s hc hs ih =>
    rw [placed_cons]
    refine List.forall_mem_cons.2 ⟨?_, ih⟩
    -- A delimiter outside of quotes is just what a span leaves out.
    by_contra hdivides
    rw [Bool.not_eq_false, divides, Bool.and_eq_true, decide_eq_true_eq, decide_eq_true_eq]
      at hdivides
    obtain ⟨rfl, rfl⟩ := hdivides
    exact hc ⟨rfl, rfl, hquote⟩

/-! ### Segments -/

theorem segments_of_spans (h : Spans delim .outside s q) (hquote : delim ≠ '"') :
    segments delim s = [s] := by
  rw [segments, List.splitOnP_eq_singleton (h.not_divides hquote), List.map_singleton,
    map_fst_placed]

/-- Behind a delimiter that stands outside of quotes the scan goes on as from the start. -/
theorem segments_append (h : Spans delim .outside front .outside) (hquote : delim ≠ '"')
    (back : List Char) :
    segments delim (front ++ delim :: back) = front :: segments delim back := by
  have hplaced : placed .outside (front ++ delim :: back)
      = placed .outside front ++ (delim, .outside) :: placed .outside back := by
    rw [placed_append, h.foldl_next, placed_cons, Place.next, if_neg hquote]
  have hdivides : divides delim (delim, .outside) = true := by simp [divides]
  rw [segments, hplaced, List.splitOnP_append_cons_of_forall_mem (h.not_divides hquote) _ hdivides,
    List.map_cons, map_fst_placed, segments]

theorem segments_ne_nil (delim : Char) (s : List Char) : segments delim s ≠ [] := by
  rw [segments, ne_eq, List.map_eq_nil_iff]
  exact List.splitOnP_ne_nil _ _

/-- Nothing is lost: the segments with the delimiters between them are the text. -/
theorem intercalate_segments (hquote : delim ≠ '"') (s : List Char) :
    [delim].intercalate (segments delim s) = s := by
  -- By the parts that `split` reads, so that each step takes one delimiter away.
  induction s using cut_induction delim with
  | whole s q hs _ => rw [segments_of_spans hs hquote, List.intercalate_singleton]
  | parts front back hfront _ ih =>
    rw [segments_append hfront hquote, List.intercalate_cons_of_ne_nil (segments_ne_nil _ _), ih,
      List.append_assoc, List.singleton_append]

theorem split_eq_flatMap_kept (hquote : delim ≠ '"') (s : List Char) :
    split delim s = (segments delim s).flatMap kept := by
  induction s using cut_induction delim with
  | whole s q hs hcut =>
    rw [split_eq_of_cut hcut, split, List.append_nil, segments_of_spans hs hquote,
      List.flatMap_singleton]
  | parts front back hfront hcut ih =>
    rw [split_eq_of_cut hcut, segments_append hfront hquote, List.flatMap_cons, ih]

theorem flatMap_kept (texts : List (List Char)) :
    texts.flatMap kept = (texts.map trim).filter (!·.isEmpty) := by
  induction texts with
  | nil => rfl
  | cons s texts ih =>
    rw [List.flatMap_cons, List.map_cons, List.filter_cons, ih, kept]
    rcases (trim s).isEmpty with - | -
    · rfl
    · rfl

/-! ### Octets -/

/-- Where a text is cut is found by counting octets as well: the delimiter begins behind the
octets of the first part, and as many octets further as it has itself the second part begins.  If
there is no delimiter, there is nothing so far behind. -/
theorem octets_cut (delim : Char) (s : List Char) :
    let r := cut delim .outside s
    let length := (Utf8.encode r.1).length
    (Utf8.encode s).take length = Utf8.encode r.1
      ∧ (Utf8.encode s).drop (length + delim.utf8Size) = Utf8.encode r.2 := by
  intro r length
  rcases exists_spans_cut delim .outside s with ⟨q, -, hcut⟩ | ⟨front, back, rfl, -, hcut⟩
  · -- No delimiter was found, so the whole text is in front.
    simp only [length, r, hcut]
    exact ⟨List.take_length, List.drop_eq_nil_of_le (Nat.le_add_right _ _)⟩
  · simp only [length, r, hcut, Utf8.encode_append, Utf8.encode_cons]
    rw [List.take_left, ← List.drop_drop, List.drop_left, ← String.length_utf8EncodeChar,
      List.drop_left]
    exact ⟨rfl, rfl⟩

/-! ### The elements of a list -/

/-- **The elements of a list are what a single scan finds.**  The whole text is divided at all
delimiters that the scan finds outside of quotes, so that nothing of it is lost or there twice.
The elements are these segments, trimmed and in their order, but for the blank ones.

This needs no look at the octets of a text, but where they are counted, wherever the reading has
come to, the next element is cut off at a character, and so is what is left to read. -/
theorem split_eq_segments (hquote : delim ≠ '"') (s : List Char) :
    split delim s = ((segments delim s).map trim).filter (!·.isEmpty)
      ∧ [delim].intercalate (segments delim s) = s
      ∧ ∀ rest : List Char,
        let r := cut delim .outside rest
        let length := (Utf8.encode r.1).length
        split delim rest = kept r.1 ++ split delim r.2
          ∧ (Utf8.encode rest).take length = Utf8.encode r.1
          ∧ (Utf8.encode rest).drop (length + delim.utf8Size) = Utf8.encode r.2 := by
  refine ⟨?_, intercalate_segments hquote s, ?_⟩
  · rw [split_eq_flatMap_kept hquote, flatMap_kept]
  · intro rest r length
    exact ⟨split_eq_of_cut rfl, octets_cut delim rest⟩

/-- The delimiter has two octets, there are two of them behind each other, and the last element
has a quote and a delimiter behind a backslash in quotes that are not closed. -/
theorem split_eq_segments_of_open_quote :
    let s := " a§§\"b§\"; c§d=\"\\\"§e".toList
    '§' ≠ '"'
      ∧ segments '§' s = [" a".toList, [], "\"b§\"; c".toList, "d=\"\\\"§e".toList]
      ∧ split '§' s = ["a".toList, "\"b§\"; c".toList, "d=\"\\\"§e".toList] := by
  intro s
  have hsegments : segments '§' s
      = [" a".toList, [], "\"b§\"; c".toList, "d=\"\\\"§e".toList] := by
    decide +kernel
  obtain ⟨hsplit, -, -⟩ := split_eq_segments (show '§' ≠ '"' by decide) s
  refine ⟨by decide, hsegments, ?_⟩
  rw [hsplit, hsegments]
  decide +kernel

end WebSocket.Text.Quoted
