/-
WebSocket/Proofs/Parts.lean

What is read part by part: one computation that can fail behind another, and the part of a list
up to an element that is not wanted.
-/
import Mathlib.Data.List.TakeWhile

namespace WebSocket

theorem bind_eq_ok {ε α β : Type} {x : Except ε α} {f : α → Except ε β} {b : β} :
    x >>= f = .ok b ↔ ∃ a, x = .ok a ∧ f a = .ok b := by
  rcases x with e | a
  · exact ⟨nofun, nofun⟩
  · exact ⟨fun h => ⟨a, rfl, h⟩, fun ⟨_, rfl, h⟩ => h⟩

section

variable {α : Type} {p : α → Bool} {front : List α} {b : α}

theorem takeWhile_append_cons (hfront : ∀ a ∈ front, p a) (hb : ¬p b) (back : List α) :
    (front ++ b :: back).takeWhile p = front := by
  rw [List.takeWhile_append_of_pos hfront, List.takeWhile_cons_of_neg hb, List.append_nil]

theorem dropWhile_append_cons (hfront : ∀ a ∈ front, p a) (hb : ¬p b) (back : List α) :
    (front ++ b :: back).dropWhile p = b :: back := by
  rw [List.dropWhile_append_of_pos hfront, List.dropWhile_cons_of_neg hb]

end

end WebSocket
