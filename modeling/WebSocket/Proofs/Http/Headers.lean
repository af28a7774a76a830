/-
WebSocket/Proofs/Http/Headers.lean

What is found under a name: the values of all headers of this name, in the order in which they
were added (`getAll_collect`).  Headers may also agree under all names but a few (`AgreeBut`).
-/
import WebSocket.Http.Headers
import Mathlib.Data.List.Forall2

namespace WebSocket.Http.Headers

/-- Headers as they are kept. -/
def collect (fields : List (String × Bytes)) : Headers :=
  fields.foldl (fun hs f => hs.append f.1 f.2) {}

theorem lookup_cons_of_ne {name key : String} (h : name ≠ key) (values : List Bytes)
    (groups : List (String × List Bytes)) :
    ((key, values) :: groups).lookup name = groups.lookup name := by
  rw [List.lookup_cons, beq_eq_false_iff_ne.2 h]

theorem lookup_insertInto_self (name : String) (value : Bytes)
    (groups : List (String × List Bytes)) :
    (insertInto name value groups).lookup name
      = some ((groups.lookup name).getD [] ++ [value]) := by
  fun_induction insertInto name value groups with
  | case1 => rw [List.lookup_cons_self, List.lookup_nil, Option.getD_none, List.nil_append]
  | case2 group groups hname =>
    obtain ⟨key, values⟩ := group
    obtain rfl : key = name := hname
    rw [List.lookup_cons_self, List.lookup_cons_self, Option.getD_some]
  | case3 group groups hname ih =>
    rw [lookup_cons_of_ne (Ne.symm hname), lookup_cons_of_ne (Ne.symm hname), ih]

theorem lookup_insertInto_of_ne {name name' : String} (h : name' ≠ name) (value : Bytes)
    (groups : List (String × List Bytes)) :
    (insertInto name value groups).lookup name' = groups.lookup name' := by
  fun_induction insertInto name value groups with
  | case1 => exact lookup_cons_of_ne h _ _
  | case2 group groups hname =>
    obtain ⟨key, values⟩ := group
    obtain rfl : key = name := hname
    rw [lookup_cons_of_ne h, lookup_cons_of_ne h]
  | case3 group groups hname ih => rw [List.lookup_cons, List.lookup_cons, ih]

theorem getAll_append (hs : Headers) (name name' : String) (value : Bytes) :
    (hs.append name value).getAll name'
      = hs.getAll name' ++ if lowerName name = lowerName name' then [value] else [] := by
  unfold getAll append
  by_cases h : lowerName name = lowerName name'
  · rw [if_pos h, ← h, lookup_insertInto_self, Option.getD_some]
  · rw [if_neg h, lookup_insertInto_of_ne (Ne.symm h), List.append_nil]

theorem getAll_foldl (fields : List (String × Bytes)) (hs : Headers) (name : String) :
    (fields.foldl (fun hs f => hs.append f.1 f.2) hs).getAll name
      = hs.getAll name
        ++ (fields.filter fun f => lowerName f.1 = lowerName name).map Prod.snd := by
  induction fields generalizing hs with
  | nil => exact (List.append_nil _).symm
  | cons f fields ih =>
    rw [List.foldl_cons, ih, getAll_append, List.append_assoc, List.filter_cons]
    by_cases hf : lowerName f.1 = lowerName name
    · simp [hf]
    · simp [hf]

/-- Under a name there are the values of all headers of this name, in their order. -/
theorem getAll_collect (fields : List (String × Bytes)) (name : String) :
    (collect fields).getAll name
      = (fields.filter fun f => lowerName f.1 = lowerName name).map Prod.snd :=
  getAll_foldl fields {} name

/-- Any values can be found under a name. -/
theorem exists_getAll_eq (name : String) (values : List Bytes) :
    ∃ hs : Headers, hs.getAll name = values := by
  refine ⟨collect (values.map (Prod.mk name)), ?_⟩
  rw [getAll_collect, List.filter_eq_self.2, List.map_map]
  · exact List.map_id values
  · intro f hf
    obtain ⟨value, -, rfl⟩ := List.mem_map.1 hf
    exact decide_eq_true rfl

/-! ### Headers that differ under some names only -/

/-- The same values are found under all names but these. -/
def AgreeBut (names : List String) (hs hs' : Headers) : Prop :=
  ∀ name, lowerName name ∉ names.map lowerName → hs.getAll name = hs'.getAll name

/-- What is kept under these names does not change what is found under others. -/
theorem agreeBut_of_forall₂ {names : List String} {groups groups' : List (String × List Bytes)}
    (h : List.Forall₂ (fun g g' => g.1 = g'.1 ∧ (g.2 = g'.2 ∨ g.1 ∈ names.map lowerName))
      groups groups') :
    AgreeBut names ⟨groups⟩ ⟨groups'⟩ := by
  intro name hname
  unfold getAll
  congr 1
  induction h with
  | nil => rfl
  | @cons g g' groups groups' hg h ih =>
    obtain ⟨key, values⟩ := g
    obtain ⟨key', values'⟩ := g'
    obtain ⟨rfl, hvalues⟩ := hg
    by_cases hkey : lowerName name = key
    · obtain rfl := hkey
      obtain rfl := hvalues.resolve_right hname
      rw [List.lookup_cons_self, List.lookup_cons_self]
    · rw [lookup_cons_of_ne hkey, lookup_cons_of_ne hkey, ih]

end WebSocket.Http.Headers
