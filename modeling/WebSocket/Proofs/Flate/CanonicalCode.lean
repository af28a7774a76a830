/-
WebSocket/Proofs/Flate/CanonicalCode.lean

Which word a symbol has in the canonical code, and that the tree of the code has it.

Design.  The words of one length are consecutive numbers, in the order of their symbols, and the
first of them follows from how many words are shorter (`leastWord`).  That is the rule by which a
writer finds the word of a symbol (`word?`).

The tree is grown without any of these numbers.  The two are compared by the part of the tree that
is taken up in front of a word (`span`), counted in places at the bottom of the tree.  The bits of
the place at which a word begins, cut off at its length, are the word on the one hand
(`take_wordBits`), and lead to its leaf on the other (`Leads`).  How the tree is divided into
halves again and again only shows in `leads_node` and `exists_halves`.

Main result: in a code that is not larger than the tree, each word leads to its symbol
(`behind_ofLengths`).
-/
import Mathlib.Algebra.BigOperators.Group.List.Basic
import Mathlib.Algebra.BigOperators.Ring.List
import WebSocket.Proofs.Flate.BitStream

namespace WebSocket.Flate

/-! ### Lengths and words -/

/-- The least word of `n` bits, as a number.  It follows on the words that have less bits. -/
def leastWord (lengths : List Nat) : (n : Nat) → Nat
  | 0 => 0
  | n + 1 => 2 * (leastWord lengths n + if n = 0 then 0 else lengths.count n)

/-- The word of a symbol, most significant bit first.  The words of one length are numbers in the
order of their symbols. -/
def word? (lengths : List Nat) (symbol : Nat) : Option (List Bool) :=
  match lengths[symbol]? with
  | none | some 0 => none
  | some n => some (wordBits n (leastWord lengths n + (lengths.take symbol).count n))

/-- Symbols one behind the other whose words have one length have words that follow each other. -/
theorem word?_of_run {lengths front back : List Nat} {first least m n symbol : Nat}
    (hlengths : lengths = front ++ (List.replicate m n ++ back)) (hfront : front.length = first)
    (hn : 0 < n) (hleast : leastWord lengths n + front.count n = least)
    (hfirst : first ≤ symbol) (hsymbol : symbol < first + m) :
    word? lengths symbol = some (wordBits n (least + (symbol - first))) := by
  obtain ⟨i, rfl⟩ := Nat.exists_eq_add_of_le hfirst
  have hi : i < m := Nat.lt_of_add_lt_add_left hsymbol
  subst hfront
  have hget : lengths[front.length + i]? = some n := by
    rw [hlengths, List.getElem?_append_right hfirst, Nat.add_sub_cancel_left,
      List.getElem?_append_left (by rwa [List.length_replicate]), List.getElem?_replicate_of_lt hi]
  have htake : lengths.take (front.length + i) = front ++ List.replicate i n := by
    rw [hlengths, List.take_length_add_append, List.take_append_of_le_length (by simp [hi.le]),
      List.take_replicate, Nat.min_eq_left hi.le]
  have hcount : (lengths.take (front.length + i)).count n = front.count n + i := by
    rw [htake, List.count_append, List.count_replicate_self]
  rw [Nat.add_sub_cancel_left, ← hleast, Nat.add_assoc, ← hcount]
  rcases n with - | n
  · cases hn
  · rw [word?, hget]
    rfl

/-- The part of a code that a word of `n` bits takes up, in units of a word of the greatest
length. -/
def share (n : Nat) : Nat :=
  2 ^ (maxCodeLength - n)

/-- The part of a code that all words together take up. -/
def kraft (lengths : List Nat) : Nat :=
  (lengths.map fun n => if n = 0 then 0 else share n).sum

/-- Lengths whose words take up all of a code, no less and no more. -/
structure IsComplete (lengths : List Nat) : Prop where
  le : ∀ n ∈ lengths, n ≤ maxCodeLength
  full : kraft lengths = share 0

/-- Lengths for a code in which the data of a block is written: it is complete, unless it has no
word at all, or a single one of one bit. -/
def IsDataCode (lengths : List Nat) : Prop :=
  IsComplete lengths ∨ (∀ n ∈ lengths, n ≤ 1) ∧ kraft lengths < share 0

theorem share_pos (n : Nat) : 0 < share n :=
  Nat.two_pow_pos _

theorem share_dvd {m n : Nat} (h : m ≤ n) : share n ∣ share m :=
  Nat.pow_dvd_pow 2 (Nat.sub_le_sub_left h _)

/-- The tree behind a bit is half of the tree in front of it. -/
theorem share_eq_add {n : Nat} (h : n < maxCodeLength) :
    share n = share (n + 1) + share (n + 1) := by
  have hn : maxCodeLength - n = maxCodeLength - (n + 1) + 1 := by omega
  rw [share, share, hn, Nat.pow_succ, Nat.mul_two]

namespace CodeTree

/-! ### What words take up -/

/-- What words, given by their lengths and symbols, take up. -/
def span (words : List (Nat × Nat)) : Nat :=
  (words.map fun w => share w.1).sum

@[simp] theorem span_nil : span [] = 0 :=
  rfl

@[simp] theorem span_cons (w : Nat × Nat) (words : List (Nat × Nat)) :
    span (w :: words) = share w.1 + span words := by
  simp [span]

@[simp] theorem span_append (front back : List (Nat × Nat)) :
    span (front ++ back) = span front + span back := by
  simp [span]

theorem eq_nil_of_span_eq_zero {words : List (Nat × Nat)} (h : span words = 0) : words = [] := by
  cases words with
  | nil => rfl
  | cons w words =>
    rw [span_cons] at h
    have := share_pos w.1
    omega

/-- Words of one length. -/
theorem span_eq_length_mul {words : List (Nat × Nat)} {n : Nat} (h : ∀ w ∈ words, w.1 = n) :
    span words = words.length * share n := by
  have hshares : words.map (fun w => share w.1) = words.map fun _ => share n :=
    List.map_congr_left fun w hw => congrArg share (h w hw)
  rw [span, hshares, List.map_const', List.sum_replicate_nat]

/-- Where longer words stand behind shorter ones, they can be divided behind any part of the code
that is a multiple of each word. -/
theorem exists_span_eq {words : List (Nat × Nat)} {part : Nat}
    (hsorted : words.Pairwise fun v w => v.1 ≤ w.1) (hdvd : ∀ w ∈ words, share w.1 ∣ part)
    (hpart : part ≤ span words) : ∃ front back, words = front ++ back ∧ span front = part := by
  induction words generalizing part with
  | nil => exact ⟨[], [], rfl, (Nat.le_zero.1 hpart).symm⟩
  | cons w words ih =>
    rcases Nat.eq_zero_or_pos part with rfl | hpos
    · exact ⟨[], w :: words, rfl, rfl⟩
    · obtain ⟨hfirst, hsorted⟩ := List.pairwise_cons.1 hsorted
      have hw : share w.1 ∣ part := hdvd w List.mem_cons_self
      have hle : share w.1 ≤ part := Nat.le_of_dvd hpos hw
      rw [span_cons] at hpart
      have hrest : ∀ v ∈ words, share v.1 ∣ part - share w.1 := fun v hv =>
        Nat.dvd_sub (hdvd v (List.mem_cons_of_mem _ hv)) (share_dvd (hfirst v hv))
      obtain ⟨front, back, rfl, hfront⟩ := ih hsorted hrest (by omega)
      refine ⟨w :: front, back, rfl, ?_⟩
      rw [span_cons, hfront]
      omega

/-! ### The tree -/

theorem wordBits_succ (height a : Nat) :
    wordBits (height + 1) a = a.testBit height :: wordBits height a := by
  simp [wordBits, numberBits, List.range_succ]

/-- The bits of a place in the second half are those of the place in it, behind a one. -/
theorem wordBits_add (height a : Nat) : wordBits height (2 ^ height + a) = wordBits height a := by
  simp only [wordBits, numberBits]
  congr 1
  refine List.map_congr_left fun i hi => ?_
  exact Nat.testBit_two_pow_add_gt (List.mem_range.1 hi) a

/-- Words below a tree are divided among its two halves. -/
theorem exists_halves {depth : Nat} (hdepth : depth < maxCodeLength)
    {words later : List (Nat × Nat)} (hsorted : words.Pairwise fun v w => v.1 ≤ w.1)
    (hbelow : ∀ w ∈ words, depth + 1 ≤ w.1)
    (hspan : span words = share depth ∨ span words < share depth ∧ later = []) :
    ∃ zeros ones, words = zeros ++ ones
      ∧ (span zeros = share (depth + 1) ∨ span zeros < share (depth + 1) ∧ ones ++ later = [])
      ∧ (span ones = share (depth + 1) ∨ span ones < share (depth + 1) ∧ later = []) := by
  have hhalves := share_eq_add hdepth
  have hpos := share_pos (depth + 1)
  by_cases hfew : span words < share (depth + 1)
  · -- The first half is not even full.
    obtain rfl : later = [] := by
      rcases hspan with hfull | ⟨-, hnone⟩
      · omega
      · exact hnone
    exact ⟨words, [], (List.append_nil _).symm, .inr ⟨hfew, rfl⟩, .inr ⟨hpos, rfl⟩⟩
  · obtain ⟨zeros, ones, rfl, hzeros⟩ :=
      exists_span_eq hsorted (fun w hw => share_dvd (hbelow w hw)) (Nat.not_lt.1 hfew)
    rw [span_append] at hspan
    refine ⟨zeros, ones, rfl, .inl hzeros, ?_⟩
    rcases hspan with hfull | ⟨hroom, hnone⟩
    · left
      omega
    · right
      exact ⟨by omega, hnone⟩

/-- An element in two lists is in the first or in the second one. -/
theorem exists_of_append_eq_append_cons {α : Type} {x : α} {front back as bs : List α}
    (h : as ++ bs = front ++ x :: back) :
    (∃ mid, as = front ++ x :: mid) ∨ ∃ mid, front = as ++ mid ∧ bs = mid ++ x :: back := by
  rcases List.append_eq_append_iff.1 h with ⟨mid, hfront, hbs⟩ | ⟨mid, has, hback⟩
  · exact .inr ⟨mid, hfront, hbs⟩
  · rcases List.cons_eq_append_iff.1 hback with ⟨rfl, hbs⟩ | ⟨rest, rfl, -⟩
    · exact .inr ⟨[], by rw [has, List.append_nil, List.append_nil], hbs⟩
    · exact .inl ⟨rest, has⟩

/-- What stands in front of a word takes up less than all of them. -/
theorem span_lt_of_append_cons {front back : List (Nat × Nat)} {w : Nat × Nat} {part : Nat}
    (h : span (front ++ w :: back) ≤ part) : span front < part := by
  have := share_pos w.1
  rw [span_append, span_cons] at h
  omega

/-- A tree at `depth` has leaves for these words: the bits of the place in front of a word, cut
off at its length, lead to it. -/
def Leads (t : CodeTree) (depth : Nat) (words : List (Nat × Nat)) : Prop :=
  ∀ front n symbol back, words = front ++ (n, symbol) :: back →
    t.behind ((wordBits (maxCodeLength - depth) (span front)).take (n - depth)) = .leaf symbol

theorem leads_nil (t : CodeTree) (depth : Nat) : t.Leads depth [] := by
  intro front n symbol back hsplit
  simp at hsplit

theorem leads_leaf (depth symbol : Nat) : (leaf symbol).Leads depth [(depth, symbol)] := by
  intro front n symbol' back hsplit
  obtain ⟨rfl, hsame⟩ | ⟨front, -, hnone⟩ := List.cons_eq_append_iff.1 hsplit
  · cases hsame
    rw [Nat.sub_self]
    rfl
  · simp at hnone

theorem leads_node {zero one : CodeTree} {depth : Nat} {zeros ones : List (Nat × Nat)}
    (hdepth : depth < maxCodeLength) (hbelow : ∀ w ∈ zeros ++ ones, depth + 1 ≤ w.1)
    (hzeros : span zeros = share (depth + 1) ∨ span zeros < share (depth + 1) ∧ ones = [])
    (hones : span ones ≤ share (depth + 1))
    (hzero : zero.Leads (depth + 1) zeros) (hone : one.Leads (depth + 1) ones) :
    (node zero one).Leads depth (zeros ++ ones) := by
  intro front n symbol back hsplit
  have hn : n - depth = n - (depth + 1) + 1 := by
    have hword : depth + 1 ≤ n := hbelow (n, symbol) (hsplit ▸ by simp)
    omega
  have hheight : maxCodeLength - depth = maxCodeLength - (depth + 1) + 1 := by omega
  rw [hn, hheight, wordBits_succ, List.take_succ_cons, behind_cons]
  rcases exists_of_append_eq_append_cons hsplit with ⟨mid, hmid⟩ | ⟨mid, rfl, hmid⟩
  · -- The word is in the first half, and so is the place in front of it.
    have hle : span (front ++ (n, symbol) :: mid) ≤ share (depth + 1) := by
      rw [← hmid]
      exact hzeros.elim Nat.le_of_eq fun h => Nat.le_of_lt h.1
    have hless := span_lt_of_append_cons hle
    rw [share] at hless
    rw [Nat.testBit_lt_two_pow hless]
    exact hzero front n symbol mid hmid
  · -- The word is in the second half, so the first one is full.
    have hfull : span zeros = share (depth + 1) := by
      rcases hzeros with hfull | ⟨-, hnone⟩
      · exact hfull
      · simp [hnone] at hmid
    rw [hmid] at hones
    have hless := span_lt_of_append_cons hones
    rw [share] at hless hfull
    rw [span_append, hfull, Nat.testBit_two_pow_add_eq, Nat.testBit_lt_two_pow hless, wordBits_add]
    exact hone mid n symbol back hmid

theorem grow_nil (height depth : Nat) : grow height depth [] = (dead, []) := by
  cases height <;> rfl

theorem grow_leaf (height depth symbol : Nat) (words : List (Nat × Nat)) :
    grow height depth ((depth, symbol) :: words) = (leaf symbol, words) := by
  cases height <;> simp [grow]

/-- A tree has the words behind a zero first, and then those behind a one. -/
theorem grow_node {depth : Nat} {w : Nat × Nat} (hw : w.1 ≠ depth) (height : Nat)
    (words : List (Nat × Nat)) :
    let zero := grow height (depth + 1) (w :: words)
    let one := grow height (depth + 1) zero.2
    grow (height + 1) depth (w :: words) = (node zero.1 one.1, one.2) := by
  simp [grow, hw]

/-- From the words that are left, a tree takes as many as it has room for. -/
theorem grow_spec {height depth : Nat} (hheight : depth + height = maxCodeLength)
    {words later : List (Nat × Nat)} (hsorted : words.Pairwise fun v w => v.1 ≤ w.1)
    (hbounds : ∀ w ∈ words, depth ≤ w.1 ∧ w.1 ≤ maxCodeLength)
    (hspan : span words = share depth ∨ span words < share depth ∧ later = []) :
    (grow height depth (words ++ later)).2 = later
      ∧ (grow height depth (words ++ later)).1.Leads depth words := by
  induction height using Nat.strongRecOn generalizing depth words later with
  | _ height ih =>
    rcases hwords : words with - | ⟨w, rest⟩
    · -- The tree is empty, and then no words come later.
      obtain rfl : later = [] := by
        rcases hspan with hfull | ⟨-, hnone⟩
        · rw [hwords] at hfull
          exact absurd hfull (Nat.ne_of_lt (share_pos depth))
        · exact hnone
      rw [List.append_nil, grow_nil]
      exact ⟨rfl, leads_nil _ _⟩
    · obtain ⟨hle, hmax⟩ := hbounds w (hwords ▸ List.mem_cons_self)
      by_cases hleaf : w.1 = depth
      · -- The first word takes up all of the tree.
        obtain rfl : rest = [] := by
          have hsum : share depth + span rest = span words := by rw [hwords, span_cons, hleaf]
          exact eq_nil_of_span_eq_zero (by omega)
        obtain ⟨n, symbol⟩ := w
        obtain rfl : n = depth := hleaf
        rw [List.singleton_append, grow_leaf]
        exact ⟨rfl, leads_leaf n symbol⟩
      · obtain ⟨height, rfl⟩ : ∃ k, height = k + 1 := ⟨height - 1, by omega⟩
        have hbelow : ∀ v ∈ words, depth + 1 ≤ v.1 := by
          rw [hwords] at hsorted ⊢
          intro v hv
          rcases List.mem_cons.1 hv with rfl | hv
          · omega
          · have := (List.pairwise_cons.1 hsorted).1 v hv
            omega
        obtain ⟨zeros, ones, rfl, hzeros, hones⟩ := exists_halves (by omega) hsorted hbelow hspan
        obtain ⟨hsorted₀, hsorted₁, -⟩ := List.pairwise_append.1 hsorted
        have hbounds' : ∀ v ∈ zeros ++ ones, depth + 1 ≤ v.1 ∧ v.1 ≤ maxCodeLength :=
          fun v hv => ⟨hbelow v hv, (hbounds v hv).2⟩
        obtain ⟨hrest₀, hleads₀⟩ := ih height (Nat.lt_succ_self _) (by omega) hsorted₀
          (fun v hv => hbounds' v (List.mem_append_left _ hv)) hzeros
        obtain ⟨hrest₁, hleads₁⟩ := ih height (Nat.lt_succ_self _) (by omega) hsorted₁
          (fun v hv => hbounds' v (List.mem_append_right _ hv)) hones
        rw [List.cons_append, grow_node hleaf, ← List.cons_append, ← hwords, List.append_assoc,
          hrest₀]
        refine ⟨hrest₁, leads_node (by omega) hbelow ?_ ?_ hleads₀ hleads₁⟩
        · exact hzeros.imp_right fun h => ⟨h.1, (List.append_eq_nil_iff.1 h.2).1⟩
        · exact hones.elim Nat.le_of_eq fun h => Nat.le_of_lt h.1

/-! ### Words in canonical order -/

section

variable {lengths : List Nat}

/-- The words of one length. -/
theorem span_filter (n k : Nat) (lengths : List Nat) :
    span ((lengths.zipIdx k).filter fun w => w.1 == n) = lengths.count n * share n := by
  rw [span_eq_length_mul (n := n) fun w hw => by simpa using (List.mem_filter.1 hw).2,
    ← List.countP_eq_length_filter, List.count_eq_countP]
  conv_rhs => rw [← List.zipIdx_map_fst k lengths, List.countP_map]
  rfl

theorem eq_of_mem_filter {k n : Nat} {w : Nat × Nat}
    (hw : w ∈ (lengths.zipIdx k).filter fun w => w.1 == n) : w.1 = n := by
  simpa using (List.mem_filter.1 hw).2

theorem bounds_of_mem_canonical {w : Nat × Nat} (hw : w ∈ canonical lengths) :
    1 ≤ w.1 ∧ w.1 ≤ maxCodeLength := by
  obtain ⟨n, hn, hw⟩ := List.mem_flatMap.1 hw
  rw [eq_of_mem_filter hw]
  rw [List.mem_range'_1] at hn
  omega

theorem pairwise_canonical (lengths : List Nat) :
    (canonical lengths).Pairwise fun v w => v.1 ≤ w.1 := by
  refine List.pairwise_flatMap.2 ⟨fun n _ => ?_, ?_⟩
  · refine List.pairwise_of_forall_mem_list fun v hv w hw => ?_
    rw [eq_of_mem_filter hv, eq_of_mem_filter hw]
  · refine List.Pairwise.imp ?_ List.pairwise_lt_range'
    intro m n hmn v hv w hw
    rw [eq_of_mem_filter hv, eq_of_mem_filter hw]
    exact Nat.le_of_lt hmn

/-- The words of less than `n` bits. -/
theorem span_shorter (lengths : List Nat) {n : Nat} (hn : n < maxCodeLength) :
    span ((List.range' 1 n).flatMap fun n => lengths.zipIdx.filter fun w => w.1 == n)
      = leastWord lengths (n + 1) * share (n + 1) := by
  induction n with
  | zero => simp [leastWord]
  | succ n ih =>
    have hhalves := share_eq_add hn
    rw [List.range'_1_concat, List.flatMap_append, span_append, ih (by omega),
      List.flatMap_singleton, span_filter, Nat.add_comm 1 n, leastWord.eq_def lengths (n + 1 + 1)]
    dsimp only
    rw [if_neg (Nat.succ_ne_zero n), hhalves, ← Nat.add_mul, Nat.mul_comm 2, Nat.mul_assoc,
      Nat.two_mul]

theorem span_canonical (h : ∀ n ∈ lengths, n ≤ maxCodeLength) :
    span (canonical lengths) = kraft lengths := by
  have hcounts : span (canonical lengths)
      = ((List.range' 1 maxCodeLength).map fun n => lengths.count n * share n).sum := by
    rw [canonical]
    induction List.range' 1 maxCodeLength with
    | nil => rfl
    | cons n ns ih => rw [List.flatMap_cons, span_append, span_filter, ih, List.map_cons,
        List.sum_cons]
  rw [hcounts, kraft]
  clear hcounts
  induction lengths with
  | nil => simp
  | cons m lengths ih =>
    have hone : ∀ m ≤ maxCodeLength, ((List.range' 1 maxCodeLength).map fun n =>
        (if m == n then 1 else 0) * share n).sum = if m = 0 then 0 else share m := by
      decide
    simp only [List.count_cons, Nat.add_mul, List.sum_map_add]
    rw [ih fun n hn => h n (List.mem_cons_of_mem _ hn), hone m (h m List.mem_cons_self),
      List.map_cons, List.sum_cons, Nat.add_comm]

/-- In front of a word stand the shorter ones, and those of the same length whose symbols are
less. -/
theorem exists_canonical_eq {symbol n : Nat} (h : lengths[symbol]? = some n) (hpos : n ≠ 0)
    (hmax : n ≤ maxCodeLength) : ∃ front back, canonical lengths = front ++ (n, symbol) :: back
      ∧ span front = (leastWord lengths n + (lengths.take symbol).count n) * share n := by
  obtain ⟨n, rfl⟩ : ∃ k, n = k + 1 := ⟨n - 1, by omega⟩
  have hrange : List.range' 1 maxCodeLength
      = List.range' 1 n ++ (n + 1) :: List.range' (n + 2) (maxCodeLength - (n + 1)) := by
    have hall : maxCodeLength = n + (maxCodeLength - (n + 1) + 1) := by omega
    conv_lhs => rw [hall, ← List.range'_append_1, List.range'_succ]
    rw [Nat.add_comm 1 n]
  obtain ⟨hlt, hget⟩ := List.getElem?_eq_some_iff.1 h
  have hlengths : lengths = lengths.take symbol ++ (n + 1) :: lengths.drop (symbol + 1) := by
    rw [← hget, List.getElem_cons_drop, List.take_append_drop]
  have hlength : (lengths.take symbol).length = symbol := by
    rw [List.length_take]
    omega
  let less := (lengths.take symbol).zipIdx.filter fun w => w.1 == n + 1
  let more := ((lengths.drop (symbol + 1)).zipIdx (symbol + 1)).filter fun w => w.1 == n + 1
  have hfilter : (lengths.zipIdx.filter fun w => w.1 == n + 1)
      = less ++ (n + 1, symbol) :: more := by
    conv_lhs => rw [hlengths, List.zipIdx_append, hlength, Nat.zero_add, List.zipIdx_cons,
      List.filter_append, List.filter_cons_of_pos (by simp)]
  let shorter := (List.range' 1 n).flatMap fun n => lengths.zipIdx.filter fun w => w.1 == n
  have hspan : span (shorter ++ less)
      = (leastWord lengths (n + 1) + (lengths.take symbol).count (n + 1)) * share (n + 1) := by
    rw [span_append, span_filter, span_shorter lengths (by omega), Nat.add_mul]
  have hcanonical : canonical lengths = (shorter ++ less) ++ (n + 1, symbol) :: (more
      ++ (List.range' (n + 2) (maxCodeLength - (n + 1))).flatMap fun n =>
        lengths.zipIdx.filter fun w => w.1 == n) := by
    rw [canonical, hrange, List.flatMap_append, List.flatMap_cons, hfilter, List.append_assoc,
      List.append_assoc, List.cons_append]
  exact ⟨_, _, hcanonical, hspan⟩

/-! ### The code -/

/-- The first bits of the place that a word begins at are the word. -/
theorem take_wordBits (n k word : Nat) :
    (wordBits (k + n) (word * 2 ^ k)).take n = wordBits n word := by
  induction n with
  | zero => rfl
  | succ n ih =>
    rw [← Nat.add_assoc, wordBits_succ, wordBits_succ, List.take_succ_cons, ih,
      Nat.testBit_mul_two_pow, Nat.add_sub_cancel_left]
    simp

/-- **In the tree of a code, the word of a symbol leads to it.** -/
theorem behind_ofLengths (hmax : ∀ n ∈ lengths, n ≤ maxCodeLength)
    (hkraft : kraft lengths ≤ share 0) {symbol : Nat} {word : List Bool}
    (h : word? lengths symbol = some word) :
    (ofLengths lengths).behind word = .leaf symbol ∧ word ≠ [] := by
  unfold word? at h
  split at h
  · cases h
  · cases h
  · next n hpos hn =>
    cases h
    have hle : n ≤ maxCodeLength := hmax n (List.mem_of_getElem? hn)
    obtain ⟨front, back, hcanonical, hspan⟩ := exists_canonical_eq hn hpos hle
    have hroom : span (canonical lengths) = share 0
        ∨ span (canonical lengths) < share 0 ∧ ([] : List (Nat × Nat)) = [] := by
      rw [span_canonical hmax]
      exact (Nat.eq_or_lt_of_le hkraft).imp_right fun h => ⟨h, rfl⟩
    obtain ⟨-, hleads⟩ := grow_spec (Nat.zero_add _) (pairwise_canonical lengths)
      (fun w hw => ⟨Nat.zero_le _, (bounds_of_mem_canonical hw).2⟩) hroom
    have hword := hleads front n symbol back hcanonical
    have hheight : maxCodeLength - 0 = maxCodeLength - n + n := by omega
    rw [List.append_nil, hspan, hheight, share, Nat.sub_zero, take_wordBits] at hword
    refine ⟨hword, ?_⟩
    obtain ⟨n, rfl⟩ := Nat.exists_eq_succ_of_ne_zero hpos
    rw [wordBits_succ]
    exact List.cons_ne_nil _ _

example : (List.range 4).map (word? [2, 1, 3, 3])
    = [some [true, false], some [false], some [true, true, false], some [true, true, true]] :=
  rfl

theorem weight_eq_kraft (lengths : List Nat) : weight lengths = kraft lengths := by
  -- The sum starts at any number, as it does in the rest of the list.
  suffices hfrom : ∀ w, lengths.foldl
      (fun w n => if n = 0 then w else w + (1 <<< (maxCodeLength - n))) w = w + kraft lengths by
    rw [weight, hfrom, Nat.zero_add]
  induction lengths with
  | nil => intro w; rfl
  | cons n lengths ih =>
    intro w
    rw [List.foldl_cons, ih]
    simp only [kraft, List.map_cons, List.sum_cons, share, Nat.one_shiftLeft]
    split <;> omega

theorem forLengths?_eq_some (h : IsComplete lengths) :
    forLengths? lengths = some (ofLengths lengths) := by
  have hsome : ¬lengths.all (· == 0) := by
    intro hnone
    have hzero : kraft lengths = 0 := by
      have hshares : lengths.map (fun n => if n = 0 then 0 else share n)
          = lengths.map fun _ => 0 :=
        List.map_congr_left fun n hn => if_pos (beq_iff_eq.1 (List.all_eq_true.1 hnone n hn))
      rw [kraft, hshares, List.map_const', List.sum_replicate_nat, Nat.mul_zero]
    exact absurd (hzero.symm.trans h.full) (Nat.ne_of_lt (share_pos 0))
  rw [forLengths?, if_neg hsome, if_pos]
  rw [isComplete, weight_eq_kraft, h.full]
  rfl

theorem forData?_eq_some (h : IsDataCode lengths) :
    forData? lengths = some (ofLengths lengths) := by
  rw [forData?, isComplete, weight_eq_kraft]
  rcases h with h | ⟨hshort, hroom⟩
  · rw [h.full]
    rfl
  · have hroom' : kraft lengths < 1 <<< maxCodeLength := hroom
    have hincomplete : ¬(kraft lengths == 1 <<< maxCodeLength) = true := by
      rw [beq_iff_eq]
      exact Nat.ne_of_lt hroom'
    rw [if_neg hincomplete, if_pos]
    simpa [hroom'] using hshort

end

end CodeTree

open CodeTree

theorem IsComplete.behind {lengths : List Nat} (h : IsComplete lengths) {symbol : Nat}
    {word : List Bool} (hword : word? lengths symbol = some word) :
    (ofLengths lengths).behind word = .leaf symbol ∧ word ≠ [] :=
  behind_ofLengths h.le (Nat.le_of_eq h.full) hword

theorem IsDataCode.behind {lengths : List Nat} (h : IsDataCode lengths) {symbol : Nat}
    {word : List Bool} (hword : word? lengths symbol = some word) :
    (ofLengths lengths).behind word = .leaf symbol ∧ word ≠ [] := by
  rcases h with h | ⟨hshort, hroom⟩
  · exact h.behind hword
  · exact behind_ofLengths (fun n hn => Nat.le_trans (hshort n hn) (by decide))
      (Nat.le_of_lt hroom) hword

end WebSocket.Flate
