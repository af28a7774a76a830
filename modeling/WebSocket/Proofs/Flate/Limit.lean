/-
WebSocket/Proofs/Flate/Limit.lean

What a limit makes of a decompressed part.

The limit does not change how a decompressor is called, and so it decides on nothing but the end:
what inflates to a number of octets under one limit does so under any limit that is no smaller, and
under a smaller one it is refused for its length (`Inflates.inflate_eq`).  So a part can be said
to inflate to its octets without a limit (`Inflates`), and a message is inflated part by part
(`InflatesAll`).
-/
import Mathlib.Tactic.SplitIfs
import WebSocket.Proofs.Flate.Inflation

namespace WebSocket.Flate

variable {δ : Type} [Decompressor δ]

/-- What is there already stays in front. -/
theorem prefix_of_inflateFrom {limit capacity : Nat} {d d' : δ} {input output all : Bytes}
    (h : inflateFrom limit d input output capacity = .ok (d', all)) : output <+: all := by
  fun_induction inflateFrom limit d input output capacity with
  | case1 | case2 | case4 => cases h
  | case3 =>
    cases h
    exact List.prefix_append _ _
  | case5 _ _ _ _ _ _ _ _ _ _ _ ih => exact (List.prefix_append _ _).trans (ih h)

/-- Only the length of the whole output matters for a limit. -/
theorem inflateFrom_eq_of_ok {limit' capacity : Nat} {d d' : δ} {input output all : Bytes}
    (h : inflateFrom limit' d input output capacity = .ok (d', all)) (limit : Nat) :
    inflateFrom limit d input output capacity
      = if all.length ≤ limit then .ok (d', all) else .error (.tooLarge limit) := by
  fun_induction inflateFrom limit' d input output capacity with
  | case1 | case2 | case4 => cases h
  | case3 d input output capacity size a hadvance total _ hdone =>
    cases h
    rw [inflateFrom_of_advance rfl hadvance, List.length_append, if_pos hdone]
    split_ifs with hlt hle hle
    · exact absurd hle (Nat.not_le.2 hlt)
    · rfl
    · rfl
    · exact absurd (Nat.not_lt.1 hlt) hle
  | case5 d input output capacity size a hadvance total _ hgoes hstalled ih =>
    -- What is written so far is the front of all that will be.
    have htotal : output.length + a.output.length ≤ all.length := by
      rw [← List.length_append]
      exact (prefix_of_inflateFrom h).length_le
    rw [inflateFrom_of_advance rfl hadvance, if_neg hgoes, if_neg hstalled, ih h]
    split_ifs with hlt hle hle
    · omega
    · rfl
    · rfl
    · rfl

/-! ### Inflating without a limit -/

/-- The decompressor `d` inflates `input` to `output`, and then it is `d'`. -/
def Inflates (d : δ) (input output : Bytes) (d' : δ) : Prop :=
  ∃ limit, inflate limit d input = .ok (d', output)

/-- Under any limit, a part is inflated if its length allows it, and refused otherwise. -/
theorem Inflates.inflate_eq {d d' : δ} {input output : Bytes} (h : Inflates d input output d')
    (limit : Nat) : inflate limit d input
      = if output.length ≤ limit then .ok (d', output) else .error (.tooLarge limit) := by
  obtain ⟨limit', h⟩ := h
  exact inflateFrom_eq_of_ok h limit

/-- A part inflates to one thing only. -/
theorem Inflates.unique {d d₁ d₂ : δ} {input output₁ output₂ : Bytes}
    (h₁ : Inflates d input output₁ d₁) (h₂ : Inflates d input output₂ d₂) :
    output₁ = output₂ ∧ d₁ = d₂ := by
  obtain ⟨limit, h₁⟩ := h₁
  have heq := h₂.inflate_eq limit
  rw [h₁] at heq
  split_ifs at heq
  cases heq
  exact ⟨rfl, rfl⟩

/-- The parts of a message inflate to their shares, one after the other. -/
inductive InflatesAll : (d : δ) → (parts shares : List Bytes) → (d' : δ) → Prop
  | nil (d : δ) : InflatesAll d [] [] d
  | cons {d d' d'' : δ} {part share : Bytes} {parts shares : List Bytes}
      (h : Inflates d part share d') (hrest : InflatesAll d' parts shares d'') :
      InflatesAll d (part :: parts) (share :: shares) d''

namespace InflatesAll

variable {d d' d'' : δ} {parts front back shares shares' : List Bytes}

theorem length_eq (h : InflatesAll d parts shares d') : shares.length = parts.length := by
  induction h with
  | nil => rfl
  | cons _ _ ih => rw [List.length_cons, List.length_cons, ih]

theorem of_append (h : InflatesAll d (front ++ back) shares d'') :
    ∃ shares₁ shares₂ d', shares = shares₁ ++ shares₂ ∧ InflatesAll d front shares₁ d'
      ∧ InflatesAll d' back shares₂ d'' := by
  induction front generalizing d shares with
  | nil => exact ⟨[], shares, d, rfl, .nil d, h⟩
  | cons part front ih =>
    cases h with
    | cons hfirst hrest =>
      obtain ⟨shares₁, shares₂, d', rfl, hfront, hback⟩ := ih hrest
      exact ⟨_ :: shares₁, shares₂, d', rfl, .cons hfirst hfront, hback⟩

theorem unique (h : InflatesAll d parts shares d') (h' : InflatesAll d parts shares' d'') :
    shares = shares' ∧ d' = d'' := by
  induction h generalizing shares' with
  | nil =>
    cases h'
    exact ⟨rfl, rfl⟩
  | cons hfirst _ ih =>
    cases h' with
    | cons hfirst' hrest' =>
      obtain ⟨rfl, rfl⟩ := hfirst.unique hfirst'
      obtain ⟨rfl, rfl⟩ := ih hrest'
      exact ⟨rfl, rfl⟩

end InflatesAll

end WebSocket.Flate
