/-
WebSocket/Proofs/Handshake/HeadEnd.lean

Where the head of a response ends.

A head ends with the first 0D 0A 0D 0A of the stream.  A reader does not look for these four
octets in what it has collected: it counts how many of them it has just seen.  When the count
breaks off, octets that were counted may be the start of the four once more, as in
0D 0A 0D 0D 0A 0D 0A.  So what the count has to be is the length of the longest front part of
the four that the octets so far end with (`Tracks`).  One octet keeps this
(`isGreatest_advance`), so the count is full exactly at the first end (`scan_spec`).
-/
import Mathlib.Order.Bounds.Basic
import WebSocket.Proofs.Handshake.Reading

namespace WebSocket.Handshake

/-! ### Ends of a head in a stream -/

/-- The numbers of octets behind which a stream has just had the four octets that end a
head. -/
def headEnds (s : Bytes) : Set Nat :=
  {n | n ≤ s.length ∧ endOfHead <:+ s.take n}

/-- What follows makes no difference to the ends that have come. -/
theorem mem_headEnds_append {s : Bytes} {n : Nat} (hn : n ≤ s.length) (t : Bytes) :
    n ∈ headEnds (s ++ t) ↔ n ∈ headEnds s := by
  have hall : n ≤ (s ++ t).length := by rw [List.length_append]; omega
  show n ≤ (s ++ t).length ∧ endOfHead <:+ (s ++ t).take n ↔ n ≤ s.length ∧ endOfHead <:+ s.take n
  simp only [hn, hall, List.take_append_of_le_length hn]

/-- One more octet can only bring an end right behind it. -/
theorem mem_headEnds_concat {s : Bytes} {b : UInt8} {n : Nat} :
    n ∈ headEnds (s ++ [b]) ↔ n ∈ headEnds s ∨ n = s.length + 1 ∧ endOfHead <:+ s ++ [b] := by
  by_cases hn : n ≤ s.length
  · have hne : n ≠ s.length + 1 := by omega
    simp only [mem_headEnds_append hn, hne, false_and, or_false]
  · have hnot : n ∉ headEnds s := fun h => hn h.1
    simp only [hnot, false_or]
    constructor
    · rintro ⟨hle, hsuffix⟩
      obtain rfl : n = s.length + 1 := by
        rw [List.length_append, List.length_singleton] at hle
        omega
      rw [List.take_of_length_le (by simp)] at hsuffix
      exact ⟨rfl, hsuffix⟩
    · rintro ⟨rfl, hsuffix⟩
      exact ⟨by simp, by rwa [List.take_of_length_le (by simp)]⟩

/-- The first end of a stream lies in the front part of it that has an end. -/
theorem isLeast_headEnds_append {s : Bytes} {n : Nat} (hn : n ≤ s.length) (t : Bytes) :
    IsLeast (headEnds (s ++ t)) n ↔ IsLeast (headEnds s) n := by
  constructor
  · rintro ⟨hmem, hleast⟩
    refine ⟨(mem_headEnds_append hn t).1 hmem, fun k hk => hleast ?_⟩
    exact (mem_headEnds_append hk.1 t).2 hk
  · rintro ⟨hmem, hleast⟩
    refine ⟨(mem_headEnds_append hn t).2 hmem, fun k hk => ?_⟩
    by_cases hks : k ≤ s.length
    · exact hleast ((mem_headEnds_append hks t).1 hk)
    · omega

/-! ### Counting -/

/-- The lengths of the front parts of `endOfHead` that octets end with. -/
def borders (s : Bytes) : Set Nat :=
  {k | k ≤ endOfHead.length ∧ endOfHead.take k <:+ s}

/-- To go on with one more octet, a part has to be followed by that octet in `endOfHead`. -/
theorem succ_mem_borders_concat {s : Bytes} {b : UInt8} {k : Nat} :
    k + 1 ∈ borders (s ++ [b]) ↔ k ∈ borders s ∧ endOfHead[k]? = some b := by
  by_cases hk : k < endOfHead.length
  · have hsuffix : endOfHead.take (k + 1) <:+ s ++ [b]
        ↔ endOfHead.take k <:+ s ∧ [endOfHead[k]] = [b] := by
      rw [← List.take_append_getElem hk]
      exact List.suffix_append_inj_of_length_eq rfl
    rw [List.getElem?_eq_getElem hk]
    constructor
    · rintro ⟨-, h⟩
      obtain ⟨hfront, hlast⟩ := hsuffix.1 h
      exact ⟨⟨hk.le, hfront⟩, congrArg some (List.singleton_inj.1 hlast)⟩
    · rintro ⟨⟨-, hfront⟩, hlast⟩
      exact ⟨hk, hsuffix.2 ⟨hfront, congrArg (fun x => [x]) (Option.some.inj hlast)⟩⟩
  · rw [List.getElem?_eq_none (by omega)]
    constructor
    · intro h
      exact absurd h.1 hk
    · rintro ⟨-, h⟩
      cases h

/-- What octets end with is settled by the longest of these parts. -/
theorem mem_borders_iff {s : Bytes} {m : Nat} (hm : IsGreatest (borders s) m) {k : Nat} :
    k ∈ borders s ↔ k ≤ m ∧ endOfHead.take k <:+ endOfHead.take m := by
  constructor
  · intro hk
    have hkm : k ≤ m := hm.2 hk
    refine ⟨hkm, List.suffix_of_suffix_length_le hk.2 hm.1.2 ?_⟩
    simp only [List.length_take]
    omega
  · rintro ⟨hkm, hsuffix⟩
    exact ⟨hkm.trans hm.1.1, hsuffix.trans hm.1.2⟩

/-- **The count keeps to the longest part.**  As long as the four octets are not complete, one
more octet makes of the longest part that the octets end with the longest one again. -/
theorem isGreatest_advance {s : Bytes} {m : Nat} (hm : IsGreatest (borders s) m)
    (hlt : m < endOfHead.length) (b : UInt8) :
    IsGreatest (borders (s ++ [b])) (HeadReader.advance m b) := by
  have hzero {t : Bytes} : 0 ∈ borders t := ⟨Nat.zero_le _, List.nil_suffix⟩
  constructor
  · unfold HeadReader.advance
    split
    · next h => exact succ_mem_borders_concat.2 ⟨hm.1, h⟩
    · split
      · next h =>
        subst h
        exact succ_mem_borders_concat.2 ⟨hzero, rfl⟩
      · exact hzero
  · rintro (- | k) hk
    · exact Nat.zero_le _
    · obtain ⟨hk, hb⟩ := succ_mem_borders_concat.1 hk
      obtain ⟨hkm, hsuffix⟩ := (mem_borders_iff hm).1 hk
      obtain ⟨hklt, rfl⟩ := List.getElem?_eq_some_iff.1 hb
      -- Which parts end with which is a matter of the four octets alone.
      have hfour : ∀ m < endOfHead.length, ∀ k, (hk : k < endOfHead.length) → k ≤ m →
          endOfHead.take k <:+ endOfHead.take m → k + 1 ≤ HeadReader.advance m endOfHead[k] := by
        decide
      exact hfour m hlt k hklt hkm hsuffix

/-- There was no end in these octets, and this is the count behind them. -/
structure Tracks (s : Bytes) (m : Nat) : Prop where
  headEnds_eq : headEnds s = ∅
  greatest : IsGreatest (borders s) m

namespace Tracks

theorem nil : Tracks [] 0 where
  headEnds_eq := by
    refine Set.eq_empty_iff_forall_notMem.2 fun n hn => ?_
    have hlength := hn.2.length_le
    simp [endOfHead] at hlength
  greatest := by
    refine ⟨⟨Nat.zero_le _, List.nil_suffix⟩, fun k hk => ?_⟩
    have hlength := hk.2.length_le
    have hle := hk.1
    simp only [List.length_take, List.length_nil] at hlength
    omega

variable {s : Bytes} {m : Nat}

/-- As there was no end, the count is not full. -/
theorem lt (h : Tracks s m) : m < endOfHead.length := by
  by_contra hge
  have hfull : endOfHead.take m = endOfHead := List.take_of_length_le (by omega)
  have hmem : s.length ∈ headEnds s := by
    refine ⟨le_rfl, ?_⟩
    rw [List.take_length, ← hfull]
    exact h.greatest.1.2
  rw [h.headEnds_eq] at hmem
  exact hmem

/-- Behind one more octet, the count is full if and only if there is an end. -/
theorem advance_eq_iff (h : Tracks s m) (b : UInt8) :
    HeadReader.advance m b = endOfHead.length ↔ endOfHead <:+ s ++ [b] := by
  have hgreatest := isGreatest_advance h.greatest h.lt b
  constructor
  · intro hfull
    have hmem := hgreatest.1
    rw [hfull] at hmem
    simpa using hmem.2
  · intro hsuffix
    have hmem : endOfHead.length ∈ borders (s ++ [b]) := ⟨le_rfl, by simpa using hsuffix⟩
    exact Nat.le_antisymm hgreatest.1.1 (hgreatest.2 hmem)

theorem advance (h : Tracks s m) {b : UInt8}
    (hb : HeadReader.advance m b ≠ endOfHead.length) :
    Tracks (s ++ [b]) (HeadReader.advance m b) where
  headEnds_eq := by
    refine Set.eq_empty_iff_forall_notMem.2 fun n hn => ?_
    rcases mem_headEnds_concat.1 hn with hold | ⟨-, hnew⟩
    · rw [h.headEnds_eq] at hold
      exact hold
    · exact hb ((h.advance_eq_iff b).2 hnew)
  greatest := isGreatest_advance h.greatest h.lt b

theorem isLeast_of_advance (h : Tracks s m) {b : UInt8}
    (hb : HeadReader.advance m b = endOfHead.length) (t : Bytes) :
    IsLeast (headEnds (s ++ b :: t)) (s.length + 1) := by
  rw [List.append_cons, isLeast_headEnds_append (by simp)]
  refine ⟨mem_headEnds_concat.2 (.inr ⟨rfl, (h.advance_eq_iff b).1 hb⟩), fun n hn => ?_⟩
  rcases mem_headEnds_concat.1 hn with hold | ⟨rfl, -⟩
  · rw [h.headEnds_eq] at hold
    exact hold.elim
  · exact le_rfl

end Tracks

/-- **Counting finds the first end.**  Where it finds none there is none, and the count is
right for what follows. -/
theorem HeadReader.scan_spec {s : Bytes} {m : Nat} (h : Tracks s m) (input : Bytes) :
    (∀ n, (scan m 0 input).2 = some n → IsLeast (headEnds (s ++ input)) (s.length + n))
      ∧ ((scan m 0 input).2 = none → Tracks (s ++ input) (scan m 0 input).1) := by
  induction input generalizing s m with
  | nil =>
    refine ⟨fun n hn => ?_, fun _ => ?_⟩
    · cases hn
    · rwa [List.append_nil]
  | cons b input ih =>
    rw [scan]
    by_cases hb : advance m b = endOfHead.length
    · rw [if_pos hb]
      refine ⟨fun n hn => ?_, fun hn => ?_⟩
      · cases hn
        exact h.isLeast_of_advance hb input
      · cases hn
    · -- The rest is gone over with one octet more behind.
      rw [if_neg hb, scan_seen]
      obtain ⟨hsome, hnone⟩ := ih (h.advance hb)
      rw [List.append_assoc, List.singleton_append] at hsome hnone
      refine ⟨fun n hn => ?_, fun hn => hnone (Option.map_eq_none_iff.1 hn)⟩
      obtain ⟨k, hk, rfl⟩ := Option.map_eq_some_iff.1 hn
      have hlength : s.length + (0 + 1 + k) = (s ++ [b]).length + k := by simp; omega
      rw [hlength]
      exact hsome k hk

theorem headEnds_eq_empty_or_isLeast (s : Bytes) :
    headEnds s = ∅ ∨ ∃ e, IsLeast (headEnds s) e := by
  obtain ⟨hsome, hnone⟩ := HeadReader.scan_spec .nil s
  rcases hs : (HeadReader.scan 0 0 s).2 with - | n
  · exact .inl (hnone hs).headEnds_eq
  · exact .inr ⟨_, hsome n hs⟩

end WebSocket.Handshake
