/-
WebSocket/Proofs/Handshake/Checks.lean

Checks that are made in turn.

A check is given by what it says, without the way in which it is made: when it is passed, and
the errors that it fails with (`Check`).  Checks that are made in turn are a check again
(`inTurn`), which fails with an error of the first one that is not passed.

`MadeBy` relates a check to a computation.  It is put together along the computation, with
`bind` where one check follows another.
-/
import WebSocket.Handshake.Validation
import WebSocket.Proofs.Text.Utf8

namespace WebSocket.Handshake

/-- A check: when it is passed, and the errors that it fails with. -/
structure Check where
  passes : Prop
  failsWith : Error → Prop

namespace Check

/-- The check of a fact, which fails with one error. -/
def ofFact (fact : Prop) (error : Error) : Check where
  passes := fact
  failsWith e := ¬fact ∧ e = error

/-- The check of a value that has to be UTF-8, and of its text. -/
def ofText (value : Bytes) (check : List Char → Check) : Check where
  passes := ∃ text, value = Text.Utf8.encode text ∧ (check text).passes
  failsWith e := (∃ cause, Text.Utf8.decode value = .error cause ∧ e = .utf8 cause)
    ∨ ∃ text, value = Text.Utf8.encode text ∧ (check text).failsWith e

/-- Checks that are made one after the other, up to the first that fails. -/
def inTurn (checks : List Check) : Check where
  passes := ∀ c ∈ checks, c.passes
  failsWith e := ∃ front c back, checks = front ++ c :: back
    ∧ (∀ d ∈ front, d.passes) ∧ c.failsWith e

theorem inTurn_cons_passes {c : Check} {cs : List Check} :
    (inTurn (c :: cs)).passes ↔ c.passes ∧ (inTurn cs).passes :=
  List.forall_mem_cons

theorem inTurn_cons_failsWith {c : Check} {cs : List Check} {e : Error} :
    (inTurn (c :: cs)).failsWith e ↔ c.failsWith e ∨ c.passes ∧ (inTurn cs).failsWith e := by
  constructor
  · rintro ⟨front, d, back, hcs, hfront, hd⟩
    cases front with
    | nil =>
      cases hcs
      exact .inl hd
    | cons c front =>
      cases hcs
      obtain ⟨hc, hfront⟩ := List.forall_mem_cons.1 hfront
      exact .inr ⟨hc, front, d, back, rfl, hfront, hd⟩
  · rintro (hc | ⟨hc, front, d, back, rfl, hfront, hd⟩)
    · exact ⟨[], c, cs, rfl, List.forall_mem_nil _, hc⟩
    · exact ⟨c :: front, d, back, rfl, List.forall_mem_cons.2 ⟨hc, hfront⟩, hd⟩

/-- A computation gives a result if a check is passed, and otherwise an error that the check
fails with. -/
structure MadeBy {α : Type} (c : Check) (x : Except Error α) : Prop where
  passes_iff : (∃ a, x = .ok a) ↔ c.passes
  failsWith_iff : ∀ e, x = .error e ↔ c.failsWith e

variable {α β : Type} {c : Check} {cs : List Check}

theorem madeBy_ok {a : α} : c.MadeBy (.ok a) ↔ c.passes ∧ ∀ e, ¬c.failsWith e := by
  constructor
  · intro h
    refine ⟨h.passes_iff.1 ⟨a, rfl⟩, fun e he => ?_⟩
    cases (h.failsWith_iff e).2 he
  · rintro ⟨h, h'⟩
    exact ⟨⟨fun _ => h, fun _ => ⟨a, rfl⟩⟩, fun e => ⟨nofun, fun he => absurd he (h' e)⟩⟩

theorem madeBy_error {e : Error} :
    c.MadeBy (.error e : Except Error α) ↔ ¬c.passes ∧ ∀ e', c.failsWith e' ↔ e' = e := by
  constructor
  · intro h
    refine ⟨fun hc => ?_, fun e' => ?_⟩
    · obtain ⟨a, ha⟩ := h.passes_iff.2 hc
      cases ha
    · rw [← h.failsWith_iff, Except.error.injEq, eq_comm]
  · rintro ⟨h, h'⟩
    refine ⟨⟨nofun, fun hc => absurd hc h⟩, fun e' => ?_⟩
    rw [h', Except.error.injEq, eq_comm]

theorem madeBy_ofFact {fact : Prop} [Decidable fact] {error : Error} {a : α} :
    (ofFact fact error).MadeBy (if fact then .ok a else .error error) := by
  split
  next h => exact madeBy_ok.2 ⟨h, fun e he => he.1 h⟩
  next h => exact madeBy_error.2 ⟨h, fun e => ⟨And.right, fun he => ⟨h, he⟩⟩⟩

/-- Where no check is left, a computation has a result. -/
theorem madeBy_nil (a : α) : (inTurn []).MadeBy (.ok a) := by
  refine madeBy_ok.2 ⟨List.forall_mem_nil _, ?_⟩
  rintro e ⟨front, c, back, h, -⟩
  exact absurd h (by simp)

namespace MadeBy

variable {x : Except Error α}

/-- The checks of the computations behind a first one are made behind its check. -/
theorem bind (h : c.MadeBy x) {f : α → Except Error β}
    (hf : ∀ a, (inTurn cs).MadeBy (f a)) : (inTurn (c :: cs)).MadeBy (x >>= f) := by
  rcases x with e | a
  · -- The first check fails, and the others are not made.
    obtain ⟨hc, he⟩ := madeBy_error.1 h
    refine madeBy_error.2 ⟨fun hall => hc (inTurn_cons_passes.1 hall).1, fun e' => ?_⟩
    rw [inTurn_cons_failsWith, he]
    exact or_iff_left fun hback => hc hback.1
  · -- The first check is passed, and the others decide.
    obtain ⟨hc, he⟩ := madeBy_ok.1 h
    have hfa : (inTurn cs).MadeBy (f a) := hf a
    refine ⟨hfa.passes_iff.trans ?_, fun e => (hfa.failsWith_iff e).trans ?_⟩
    · rw [inTurn_cons_passes]
      exact (and_iff_right hc).symm
    · rw [inTurn_cons_failsWith, or_iff_right (he e)]
      exact (and_iff_right hc).symm

theorem single (h : c.MadeBy x) : (inTurn [c]).MadeBy x := by
  have hbind : (inTurn [c]).MadeBy (x >>= Except.ok) := h.bind madeBy_nil
  rcases x with e | a
  · exact hbind
  · exact hbind

/-- What is made of a result makes no difference to a check. -/
theorem map (h : c.MadeBy x) (f : α → β) : c.MadeBy (x >>= fun a => .ok (f a)) := by
  rcases x with e | a
  · exact madeBy_error.2 (madeBy_error.1 h)
  · exact madeBy_ok.2 (madeBy_ok.1 h)

/-- An error is thrown unless a fact holds, and then it goes on. -/
theorem guard {fact : Prop} [Decidable (¬fact)] {error : Error} {f : Unit → Except Error β}
    (hf : (inTurn cs).MadeBy (f ())) :
    (inTurn (ofFact fact error :: cs)).MadeBy
      (if ¬fact then (throw error : Except Error Unit) >>= f else f ()) := by
  classical
  have hfact : (ofFact fact error).MadeBy (if fact then .ok () else .error error) := madeBy_ofFact
  have hbind := hfact.bind fun _ => hf
  by_cases hfact : fact
  · rw [if_neg (not_not_intro hfact)]
    rwa [if_pos hfact] at hbind
  · rw [if_pos hfact]
    rwa [if_neg hfact] at hbind

/-- A value is read as text, and the text is checked. -/
theorem ofText {value : Bytes} {check : List Char → Check} {f : List Char → Except Error α}
    (h : ∀ text, (check text).MadeBy (f text)) :
    (ofText value check).MadeBy (readText value >>= f) := by
  rw [readText]
  rcases hvalue : Text.Utf8.decode value with cause | text
  · have hnone : ∀ text, value ≠ Text.Utf8.encode text := by
      rintro text rfl
      cases hvalue.symm.trans (Text.Utf8.decode_encode text)
    refine madeBy_error.2 ⟨fun ⟨text, htext, _⟩ => hnone text htext, fun e => ?_⟩
    constructor
    · rintro (⟨cause', hcause, he⟩ | ⟨text, htext, -⟩)
      · cases hvalue.symm.trans hcause
        exact he
      · exact absurd htext (hnone text)
    · exact fun he => .inl ⟨cause, hvalue, he⟩
  · have htext := Text.Utf8.decode_eq_ok_iff.1 hvalue
    -- There is no other text of this form.
    have hunique (p : List Char → Prop) : (∃ t, value = Text.Utf8.encode t ∧ p t) ↔ p text := by
      constructor
      · rintro ⟨t, ht, hp⟩
        rwa [Text.Utf8.encode_injective (htext.symm.trans ht)]
      · exact fun hp => ⟨text, htext, hp⟩
    refine ⟨(h text).passes_iff.trans (hunique fun t => (check t).passes).symm, fun e => ?_⟩
    have hread : ¬∃ cause, Text.Utf8.decode value = .error cause ∧ e = .utf8 cause := by
      rintro ⟨cause, hcause, -⟩
      cases hvalue.symm.trans hcause
    refine ((h text).failsWith_iff e).trans ?_
    exact ((or_iff_right hread).trans (hunique fun t => (check t).failsWith e)).symm

end MadeBy

end Check

end WebSocket.Handshake
