/-
WebSocket/Proofs/Frame/ReservedBits.lean

Reserved bits as sets of their numbers.

The three bits of a `ReservedBits` have the numbers 1, 2 and 3.  With `n ∈ s` for
the bit number `n`, the sets that are computed with are described by their members:
`lowest? (s.diff t)` finds the first member of `s` that is not in `t`
(`lowest?_diff_eq_some_iff`), and finds none exactly if `s ⊆ t`
(`lowest?_diff_eq_none_iff`).  Sets without a common member are `Apart`.
-/
import WebSocket.Frame.Basic

namespace WebSocket.ReservedBits

/-- The bit with this number is in the set. -/
instance : Membership Nat ReservedBits where
  mem s n := n = 1 ∧ s.rsv1 ∨ n = 2 ∧ s.rsv2 ∨ n = 3 ∧ s.rsv3

theorem mem_def {s : ReservedBits} {n : Nat} :
    n ∈ s ↔ n = 1 ∧ s.rsv1 ∨ n = 2 ∧ s.rsv2 ∨ n = 3 ∧ s.rsv3 :=
  Iff.rfl

theorem not_mem_empty (n : Nat) : n ∉ ({} : ReservedBits) := by
  simp [mem_def]

instance (s : ReservedBits) (n : Nat) : Decidable (n ∈ s) :=
  decidable_of_iff _ mem_def.symm

instance : HasSubset ReservedBits where
  Subset s t := ∀ n, n ∈ s → n ∈ t

theorem subset_iff {s t : ReservedBits} :
    s ⊆ t ↔ (s.rsv1 → t.rsv1) ∧ (s.rsv2 → t.rsv2) ∧ (s.rsv3 → t.rsv3) := by
  constructor
  · intro h
    refine ⟨fun h1 => ?_, fun h2 => ?_, fun h3 => ?_⟩
    · simpa [mem_def] using h 1 (by simp [mem_def, h1])
    · simpa [mem_def] using h 2 (by simp [mem_def, h2])
    · simpa [mem_def] using h 3 (by simp [mem_def, h3])
  · rintro ⟨h1, h2, h3⟩ n (⟨rfl, h⟩ | ⟨rfl, h⟩ | ⟨rfl, h⟩)
    · exact .inl ⟨rfl, h1 h⟩
    · exact .inr (.inl ⟨rfl, h2 h⟩)
    · exact .inr (.inr ⟨rfl, h3 h⟩)

theorem empty_subset (s : ReservedBits) : ({} : ReservedBits) ⊆ s :=
  fun n hn => absurd hn (not_mem_empty n)

instance (s t : ReservedBits) : Decidable (s ⊆ t) :=
  decidable_of_iff _ subset_iff.symm

theorem lowest?_diff_eq_none_iff {s t : ReservedBits} :
    (s.diff t).lowest? = none ↔ s ⊆ t := by
  rw [subset_iff]
  obtain ⟨s1, s2, s3⟩ := s
  obtain ⟨t1, t2, t3⟩ := t
  revert s1 s2 s3 t1 t2 t3
  decide

/-- The first member of `s` that `t` lacks: those below it are all in `t`. -/
theorem lowest?_diff_eq_some_iff {s t : ReservedBits} {n : Nat} :
    (s.diff t).lowest? = some n ↔ n ∈ s ∧ n ∉ t ∧ ∀ m, m < n → m ∈ s → m ∈ t := by
  constructor
  · -- The bits are tried in this order, so each refusal says that no lower bit is left.
    intro h
    by_cases h1 : s.rsv1 && !t.rsv1
    · obtain rfl : 1 = n := by simpa [lowest?, diff, h1] using h
      simp_all [mem_def]
    by_cases h2 : s.rsv2 && !t.rsv2
    · obtain rfl : 2 = n := by simpa [lowest?, diff, h1, h2] using h
      refine ⟨by simp_all [mem_def], by simp_all [mem_def], ?_⟩
      rintro m hm (⟨rfl, h⟩ | ⟨rfl, h⟩ | ⟨rfl, h⟩) <;> simp_all [mem_def]
    · obtain ⟨h3, rfl⟩ : (s.rsv3 && !t.rsv3) ∧ 3 = n := by
        simpa [lowest?, diff, h1, h2] using h
      refine ⟨by simp_all [mem_def], by simp_all [mem_def], ?_⟩
      rintro m hm (⟨rfl, h⟩ | ⟨rfl, h⟩ | ⟨rfl, h⟩) <;> simp_all [mem_def]
  · rintro ⟨⟨rfl, hs⟩ | ⟨rfl, hs⟩ | ⟨rfl, hs⟩, ht, hlow⟩
    · have h1 : s.rsv1 && !t.rsv1 := by simp_all [mem_def]
      simp [lowest?, diff, h1]
    · have h1 := hlow 1 (by decide)
      have h1 : ¬(s.rsv1 && !t.rsv1) := by simp_all [mem_def]
      have h2 : s.rsv2 && !t.rsv2 := by simp_all [mem_def]
      simp [lowest?, diff, h1, h2]
    · have h1 := hlow 1 (by decide)
      have h2 := hlow 2 (by decide)
      have h1 : ¬(s.rsv1 && !t.rsv1) := by simp_all [mem_def]
      have h2 : ¬(s.rsv2 && !t.rsv2) := by simp_all [mem_def]
      have h3 : s.rsv3 && !t.rsv3 := by simp_all [mem_def]
      simp [lowest?, diff, h1, h2, h3]

/-- No bit is in both sets. -/
def Apart (s t : ReservedBits) : Prop :=
  ∀ n, n ∈ s → n ∉ t

theorem apart_iff {s t : ReservedBits} :
    s.Apart t ↔ (s.rsv1 → ¬t.rsv1) ∧ (s.rsv2 → ¬t.rsv2) ∧ (s.rsv3 → ¬t.rsv3) := by
  constructor
  · intro h
    refine ⟨fun h1 => ?_, fun h2 => ?_, fun h3 => ?_⟩
    · simpa [mem_def] using h 1 (by simp [mem_def, h1])
    · simpa [mem_def] using h 2 (by simp [mem_def, h2])
    · simpa [mem_def] using h 3 (by simp [mem_def, h3])
  · rintro ⟨h1, h2, h3⟩ n (⟨rfl, h⟩ | ⟨rfl, h⟩ | ⟨rfl, h⟩)
    · simpa [mem_def] using h1 h
    · simpa [mem_def] using h2 h
    · simpa [mem_def] using h3 h

instance (s t : ReservedBits) : Decidable (s.Apart t) :=
  decidable_of_iff _ apart_iff.symm

theorem empty_apart (s : ReservedBits) : ReservedBits.Apart {} s :=
  fun n hn => absurd hn (not_mem_empty n)

theorem mem_union {s t : ReservedBits} {n : Nat} : n ∈ s.union t ↔ n ∈ s ∨ n ∈ t := by
  simp only [mem_def, union, Bool.or_eq_true]
  grind

theorem diff_union_of_apart {s t : ReservedBits} (h : s.Apart t) : (s.union t).diff t = s := by
  obtain ⟨s1, s2, s3⟩ := s
  obtain ⟨t1, t2, t3⟩ := t
  revert s1 s2 s3 t1 t2 t3
  decide

theorem Apart.symm {s t : ReservedBits} (h : s.Apart t) : t.Apart s :=
  fun n ht hs => h n hs ht

end WebSocket.ReservedBits
