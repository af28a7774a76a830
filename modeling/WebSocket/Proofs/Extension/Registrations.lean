/-
WebSocket/Proofs/Extension/Registrations.lean

What is made of configurations depends on the latest registrations only.

A registration takes the place of any other under its name, so no two entries of a registry have
the same name (`distinct_registered`), and an entry is found exactly if it is the latest under the
name that is asked for (`find?_registered_eq_some_iff`).  `Instantiates` says without a registry
what is made of a list of configurations: each of them is settled by itself, by the latest
registration under its name.
-/
import Mathlib.Data.List.Induction
import WebSocket.Proofs.Extension.BitsApart

namespace WebSocket.Extension

namespace Registry

variable {ε : Type} {r : Registry ε} {calls : List (String × ε)} {name : String} {e : ε}

/-- The registry behind these registrations, each a name and an extension in its initial state. -/
def registered (calls : List (String × ε)) : Registry ε :=
  calls.foldl (fun r call => r.register call.1 call.2) {}

/-- No two entries have the same name. -/
def Distinct (r : Registry ε) : Prop :=
  r.entries.Pairwise fun a b => ¬sameName a.1 b.1

/-- Among these registrations there is none under the name behind this one, which is under that
name. -/
def Latest (calls : List (String × ε)) (name : String) (e : ε) : Prop :=
  ∃ front own back, calls = front ++ (own, e) :: back ∧ sameName own name
    ∧ ∀ call ∈ back, ¬sameName call.1 name

/-! ### One registration -/

theorem Distinct.register (h : r.Distinct) (name : String) (e : ε) :
    (r.register name e).Distinct := by
  refine List.pairwise_append.2 ⟨h.filter _, List.pairwise_singleton _ _, ?_⟩
  intro entry hentry new hnew
  rw [List.mem_singleton.1 hnew]
  simpa using (List.mem_filter.1 hentry).2

/-- The entry is found under its name, and under all others there is what there was before. -/
theorem find?_register (r : Registry ε) (own : String) (e : ε) (name : String) :
    (r.register own e).find? name = if sameName own name then some e else r.find? name := by
  unfold find? Registry.register
  rw [List.find?_append, List.find?_filter]
  by_cases hname : sameName own name
  · -- All that is left of the other entries has another name.
    have hnone : r.entries.find? (fun entry =>
        !sameName entry.1 own && sameName entry.1 name) = none := by
      rw [List.find?_eq_none]
      intro entry _ hentry
      simp only [Bool.and_eq_true, Bool.not_eq_true'] at hentry
      have hsame : sameName entry.1 own := by
        rw [sameName_iff] at hname ⊢
        exact (sameName_iff.1 hentry.2).trans hname.symm
      rw [hsame] at hentry
      cases hentry.1
    simp [hname, hnone]
  · have hkept : (fun entry : String × ε => !sameName entry.1 own && sameName entry.1 name)
        = fun entry => sameName entry.1 name := by
      funext entry
      by_cases hentry : sameName entry.1 name
      · have hother : ¬sameName entry.1 own := by
          rw [sameName_iff] at hname hentry ⊢
          exact fun hsame => hname (hsame.symm.trans hentry)
        simp [hentry, hother]
      · simp [hentry]
    simp [hname, hkept]

theorem isRegistered_eq (r : Registry ε) (name : String) :
    r.isRegistered name = (r.find? name).isSome := by
  rw [find?, Option.isSome_map, List.isSome_find?, isRegistered]

/-! ### Any number of registrations -/

theorem registered_concat (calls : List (String × ε)) (call : String × ε) :
    registered (calls ++ [call]) = (registered calls).register call.1 call.2 := by
  rw [registered, List.foldl_append]
  rfl

theorem distinct_registered (calls : List (String × ε)) : (registered calls).Distinct := by
  induction calls using List.reverseRecOn with
  | nil => exact .nil
  | append_singleton calls call ih =>
    rw [registered_concat]
    exact ih.register call.1 call.2

/-- It is the last registration under the name that is found. -/
theorem find?_registered (calls : List (String × ε)) (name : String) :
    (registered calls).find? name
      = (calls.reverse.find? fun call => sameName call.1 name).map Prod.snd := by
  -- From the end, as it is the last call that hides the ones before it.
  induction calls using List.reverseRecOn with
  | nil => rfl
  | append_singleton calls call ih =>
    rw [registered_concat, find?_register, List.reverse_append, List.reverse_singleton,
      List.singleton_append, List.find?_cons]
    split
    · next h => rw [h]; rfl
    · next h => rw [Bool.eq_false_iff.2 h, ih]

theorem find?_registered_eq_some_iff :
    (registered calls).find? name = some e ↔ Latest calls name e := by
  rw [find?_registered, Option.map_eq_some_iff]
  constructor
  · -- The search runs backwards, so what it has passed over is behind the registration.
    rintro ⟨⟨own, e⟩, hfound, rfl⟩
    obtain ⟨hname, back, front, hcalls, hback⟩ := List.find?_eq_some_iff_append.1 hfound
    refine ⟨front.reverse, own, back.reverse, ?_, hname, ?_⟩
    · rw [← calls.reverse_reverse, hcalls]
      simp
    · intro call hcall
      simpa using hback call (List.mem_reverse.1 hcall)
  · rintro ⟨front, own, back, rfl, hname, hback⟩
    refine ⟨(own, e), List.find?_eq_some_iff_append.2 ⟨hname, back.reverse, front.reverse, ?_, ?_⟩,
      rfl⟩
    · simp
    · intro call hcall
      simpa using hback call (List.mem_reverse.1 hcall)

theorem find?_registered_eq_none_iff :
    (registered calls).find? name = none ↔ ∀ call ∈ calls, ¬sameName call.1 name := by
  rw [find?_registered, Option.map_eq_none_iff, List.find?_eq_none]
  simp only [List.mem_reverse]

theorem isRegistered_registered_iff :
    (registered calls).isRegistered name ↔ ∃ call ∈ calls, sameName call.1 name := by
  rw [isRegistered_eq, Option.isSome_iff_ne_none, ne_eq, find?_registered_eq_none_iff]
  simp

/-! ### Configurations -/

variable [Extension ε]

/-- What is to be made of a list of configurations.  An extension in the initial state in which it
was registered last is configured for each of them. -/
inductive Instantiates (calls : List (String × ε)) : List Config → List ε → Prop
  | nil : Instantiates calls [] []
  | accepted {c : Config} {cs : List Config} {e e' : ε} {es : List ε}
      (hlatest : Latest calls c.name e) (hconfigure : configure e c.params = (e', .ok ()))
      (h : Instantiates calls cs es) : Instantiates calls (c :: cs) (e' :: es)
  | refused {c : Config} {cs : List Config} {e e' : ε} {err : ExtensionError} {es : List ε}
      (hlatest : Latest calls c.name e) (hconfigure : configure e c.params = (e', .error err))
      (h : Instantiates calls cs es) : Instantiates calls (c :: cs) es
  | unknown {c : Config} {cs : List Config} {es : List ε}
      (hunknown : ∀ call ∈ calls, ¬sameName call.1 c.name)
      (h : Instantiates calls cs es) : Instantiates calls (c :: cs) es

theorem instantiates_instantiate (calls : List (String × ε)) (cs : List Config) :
    Instantiates calls cs ((registered calls).instantiate cs) := by
  induction cs with
  | nil => exact .nil
  | cons c cs ih =>
    rw [instantiate, List.filterMap_cons, instance?]
    rcases hfind : (registered calls).find? c.name with - | e
    · exact .unknown (find?_registered_eq_none_iff.1 hfind) ih
    · have hlatest := find?_registered_eq_some_iff.1 hfind
      rcases hconfigure : configure e c.params with ⟨e', err | ⟨⟩⟩
      · simp only [hconfigure]
        exact .refused hlatest hconfigure ih
      · simp only [hconfigure]
        exact .accepted hlatest hconfigure ih

/-- There is nothing else that could be made of them. -/
theorem Instantiates.eq_instantiate {cs : List Config} {es : List ε}
    (h : Instantiates calls cs es) : es = (registered calls).instantiate cs := by
  induction h with
  | nil => rfl
  | accepted hlatest hconfigure _ ih =>
    rw [instantiate, List.filterMap_cons, instance?, find?_registered_eq_some_iff.2 hlatest]
    simp only [hconfigure]
    rw [ih]
    rfl
  | refused hlatest hconfigure _ ih =>
    rw [instantiate, List.filterMap_cons, instance?, find?_registered_eq_some_iff.2 hlatest]
    simp only [hconfigure]
    exact ih
  | unknown hunknown _ ih =>
    rw [instantiate, List.filterMap_cons, instance?, find?_registered_eq_none_iff.2 hunknown]
    exact ih

/-- **Only the latest registrations count.**  Whatever was registered, under names in any mix of
cases, no two entries of the registry have names that are equal but for case, and there is one
under a name exactly if something was registered under it.  What is made of a list of
configurations is what `Instantiates` says, and nothing else: in the order of the list, for each
one whose name is known and whose parameters are accepted, the latest registration under that name,
configured from its initial state. -/
theorem instantiate_by_latest (calls : List (String × ε)) :
    ((registered calls).entries.map fun entry => entry.1.toList.map Char.toLower).Nodup
      ∧ (∀ name, (registered calls).isRegistered name ↔ ∃ call ∈ calls, sameName call.1 name)
      ∧ ∀ cs es, (registered calls).instantiate cs = es ↔ Instantiates calls cs es := by
  refine ⟨?_, fun name => isRegistered_registered_iff, fun cs es => ⟨?_, ?_⟩⟩
  · refine List.pairwise_map.2 ((distinct_registered calls).imp fun hdistinct heq => ?_)
    exact hdistinct (sameName_iff.2 heq)
  · rintro rfl
    exact instantiates_instantiate calls cs
  · intro h
    exact h.eq_instantiate.symm

/-- The second registration takes the place of the first one, and serves twice. -/
example :
    let calls : List (String × Marker) :=
      [("mark", { label := "a" }), ("x", { label := "b" }), ("MARK", { label := "c" })]
    ((registered calls).instantiate [{ name := "Mark" }, { name := "y" }, { name := "mark" }]).map
      Marker.label = ["c", "c"] := by
  decide +kernel

end Registry

end WebSocket.Extension
