/-
WebSocket/Proofs/Extension/Rendering.lean

When a configuration that was read is written so that it can be read again.

Names can be quoted where they are read, and what is between the quotes may be anything, but only
values are quoted where they are written.  So the name of an extension may come back without what
is behind a semicolon in it, and quotes that were opened in the name of a parameter may swallow
the delimiters behind it.  `Rereadable` says that neither happens.  The parameters need no
condition of their own: those that were read have names that are read again (`Param.Keyed`).

That nothing else is written so that it is read again is seen by counting.  Reading a part and
writing it leaves as many semicolons as there were, so if a parameter comes back, the cut behind
it was made at its end.
-/
import Mathlib.Data.List.Basic
import WebSocket.Extension.Config
import WebSocket.Proofs.Text.Quoted

namespace WebSocket.Extension

open Text

/-! ### Parameters -/

/-- The name of the parameter can be one that was read: it is not empty and has no blanks at its
ends, there is no equals sign in it, and it does not start with a semicolon. -/
structure Param.Keyed (p : Param) : Prop where
  solid : Solid p.name.toList
  equals : '=' ∉ p.name.toList
  semicolon : p.name.toList.head? ≠ some ';'

namespace Param

variable {p : Param}

/-- A parameter is written with the first character of its name in front. -/
theorem Keyed.exists_render_eq (h : p.Keyed) :
    ∃ c s, p.render = c :: s ∧ ¬isBlank c ∧ c ≠ '=' ∧ c ≠ ';' := by
  obtain ⟨c, hc, hblank⟩ := h.solid.1
  obtain ⟨s, hs⟩ := List.head?_eq_some_iff.1 hc
  have hequals : c ≠ '=' := by
    rintro rfl
    exact h.equals (by rw [hs]; exact List.mem_cons_self)
  have hsemicolon : c ≠ ';' := by
    rintro rfl
    exact h.semicolon hc
  unfold render
  rw [hs]
  split
  · exact ⟨c, _, rfl, hblank, hequals, hsemicolon⟩
  · exact ⟨c, _, rfl, hblank, hequals, hsemicolon⟩

theorem solid_quoteIfNeeded (s : List Char) : Solid (Quoted.quoteIfNeeded s) := by
  have hdelim : ¬Http.isTokenChar ';' := by decide
  exact (Quoted.element_quoteIfNeeded hdelim s).solid

theorem Keyed.solid_render (h : p.Keyed) : Solid p.render := by
  unfold render
  split
  · next v _ =>
    rw [← List.singleton_append, ← List.append_assoc]
    exact h.solid.append _ (solid_quoteIfNeeded _)
  · exact h.solid

end Param

namespace Config

/-- A parameter is read as it was written. -/
theorem parseParam?_render_of_keyed {p : Param} (hp : p.Keyed) : parseParam? p.render = some p := by
  have htrim := hp.solid.trim_eq
  have hkey : ¬p.name.toList.isEmpty := fun h => hp.solid.ne_nil (List.isEmpty_iff.1 h)
  have hequals : ∀ c ∈ p.name.toList, decide (c ≠ '=') := by
    intro c hc
    apply decide_eq_true
    rintro rfl
    exact hp.equals hc
  obtain ⟨name, value⟩ := p
  unfold parseParam? Param.render
  cases value with
  | none =>
    dsimp only at *
    rw [List.takeWhile_eq_self_iff.2 hequals, List.dropWhile_eq_nil_iff.2 hequals, htrim,
      if_neg hkey, String.ofList_toList]
  | some v =>
    dsimp only at *
    rw [takeWhile_append_cons hequals (by decide),
      dropWhile_append_cons hequals (by decide), htrim, if_neg hkey]
    dsimp only
    rw [Quoted.unquote_quoteIfNeeded, String.ofList_toList, String.ofList_toList]

/-- What is in front of an equals sign, if there is any, is the name. -/
theorem parseParam?_cases {part : List Char} {p : Param} (h : parseParam? part = some p) :
    p.name.toList = trim (part.takeWhile (· ≠ '=')) ∧ p.name.toList ≠ []
      ∧ ((part.takeWhile (· ≠ '=') = part ∧ p.value = none)
        ∨ ∃ v, part = part.takeWhile (· ≠ '=') ++ '=' :: v
          ∧ p.value = some (String.ofList (Quoted.unquote v))) := by
  have hpart := (List.takeWhile_append_dropWhile (p := fun c => decide (c ≠ '=')) (l := part)).symm
  unfold parseParam? at h
  dsimp only at h
  split at h
  · cases h
  · next hempty =>
    obtain rfl := Option.some.inj h
    refine ⟨String.toList_ofList, ?_, ?_⟩
    · rw [String.toList_ofList]
      exact fun hnil => hempty (List.isEmpty_iff.2 hnil)
    · dsimp only
      split
      · next hnone =>
        rw [hnone, List.append_nil] at hpart
        exact .inl ⟨hpart.symm, rfl⟩
      · next c v hsome =>
        have hequals : c = '=' := by
          have hc := List.head?_dropWhile_not (fun c => decide (c ≠ '=')) part
          rw [hsome] at hc
          simpa using hc
        rw [hsome, hequals] at hpart
        exact .inr ⟨v, hpart, rfl⟩

/-- Reading a parameter loses no semicolon, and writing it adds none. -/
theorem count_of_parseParam? {part : List Char} {p : Param} (h : parseParam? part = some p) :
    p.render.count ';' = part.count ';' := by
  obtain ⟨hname, -, hvalue⟩ := parseParam?_cases h
  have hcount : p.name.toList.count ';' = (part.takeWhile (· ≠ '=')).count ';' := by
    rw [hname, count_trim (by decide)]
  unfold Param.render
  rcases hvalue with ⟨hpart, hnone⟩ | ⟨v, hpart, hsome⟩
  · rw [hnone]
    dsimp only
    rw [hcount, hpart]
  · rw [hsome, hpart]
    dsimp only
    rw [List.count_append, List.count_append, hcount, List.count_cons, List.count_cons,
      Quoted.count_quoteIfNeeded (by decide) (by decide), String.toList_ofList,
      Quoted.count_unquote (by decide) (by decide) (by decide)]

theorem keyed_of_parseParam? {part : List Char} {p : Param} (h : parseParam? part = some p)
    (hsolid : Solid part) (hsemicolon : part.head? ≠ some ';') : p.Keyed := by
  obtain ⟨hname, hne, -⟩ := parseParam?_cases h
  have hsub : ∀ c ∈ trim (part.takeWhile (· ≠ '=')), c ∈ part.takeWhile (· ≠ '=') := by
    intro c hc
    have hstart : c ∈ trimStart (part.takeWhile (· ≠ '=')) := (isPrefix_trimEnd _).subset hc
    exact (List.dropWhile_suffix _).subset hstart
  rw [hname] at hne
  refine ⟨?_, ?_, ?_⟩
  · rw [hname]
    exact solid_trim hne
  · rw [hname]
    intro hmem
    exact absurd (List.mem_takeWhile_imp (hsub _ hmem)) (by decide)
  · -- The part is trimmed, so that its first character is the one of the name.
    obtain ⟨⟨c, hc, hblank⟩, -⟩ := hsolid
    obtain ⟨s, rfl⟩ := List.head?_eq_some_iff.1 hc
    by_cases hequals : c = '='
    · rw [List.takeWhile_cons_of_neg (by simp [hequals])] at hne
      exact absurd rfl hne
    · rw [hname, head?_trim hne, List.takeWhile_cons_of_pos (by simp [hequals]), trimStart,
        List.dropWhile_cons_of_neg hblank, List.head?_cons]
      exact hsemicolon

/-- A part that starts with a character that can be the first of a name is a parameter. -/
theorem exists_parseParam?_eq {c : Char} (hblank : ¬isBlank c) (hequals : c ≠ '=') (s : List Char) :
    trim (' ' :: c :: s) ≠ [] ∧ ∃ p, parseParam? (trim (' ' :: c :: s)) = some p := by
  have hstart (t : List Char) : (trim (c :: t)).head? = some c := by
    have hne : trim (c :: t) ≠ [] := trim_ne_nil hblank List.mem_cons_self
    rw [head?_trim hne, trimStart, List.dropWhile_cons_of_neg hblank, List.head?_cons]
  rw [trim_cons_of_blank (by decide)]
  obtain ⟨t, ht⟩ := List.head?_eq_some_iff.1 (hstart s)
  rw [ht]
  refine ⟨List.cons_ne_nil _ _, ?_⟩
  unfold parseParam?
  rw [List.takeWhile_cons_of_pos (by simp [hequals])]
  have hkey : (trim (c :: t.takeWhile (· ≠ '='))).isEmpty = false := by
    obtain ⟨u, hu⟩ := List.head?_eq_some_iff.1 (hstart (t.takeWhile (· ≠ '=')))
    rw [hu]
    rfl
  dsimp only
  rw [if_neg (by rw [hkey]; exact Bool.false_ne_true)]
  exact ⟨_, rfl⟩

/-! ### Written forms -/

/-- What is written behind the name. -/
def renderParams (params : List Param) : List Char :=
  params.flatMap fun p => [';', ' '] ++ p.render

theorem renderParams_cases (params : List Param) :
    renderParams params = [] ∨ (renderParams params).head? = some ';' := by
  cases params with
  | nil => exact .inl rfl
  | cons p params => exact .inr rfl

/-- The configuration is written so that it can be read back: the name is not taken for a quoted
string, and the delimiters that count are those in front of the parameters. -/
structure Rereadable (c : Config) : Prop where
  name : Quoted.unquote c.name.toList = c.name.toList
  apart : Quoted.KeptApart ';' (c.name.toList :: c.params.map Param.render)

/-- If the first parameter that is read is the one that was written first, then the cut behind it
is made at its end, as a cut elsewhere would leave another number of semicolons in front. -/
theorem spans_of_filterMap {p : Param} {params : List Param} {u : List Char} (hp : p.Keyed)
    (hu : u = [] ∨ u.head? = some ';')
    (h : (Quoted.split ';' (' ' :: p.render ++ u)).filterMap parseParam? = p :: params) :
    (u = [] ∧ ∃ q, Quoted.Spans ';' .outside p.render q)
      ∨ ∃ v, u = ';' :: v ∧ Quoted.Spans ';' .outside p.render .outside
        ∧ (Quoted.split ';' v).filterMap parseParam? = params := by
  obtain ⟨c, s, hrender, hblank, hequals, hsemicolon⟩ := hp.exists_render_eq
  -- The piece in front of the cut holds the first character of the parameter at least.
  have hcut : ∃ t, (Quoted.cut ';' .outside (' ' :: p.render ++ u)).1 = ' ' :: c :: t := by
    rw [hrender, List.cons_append, List.cons_append, Quoted.cut, if_neg (by simp)]
    dsimp only
    rw [show Quoted.Place.next .outside ' ' = .outside from rfl, Quoted.cut,
      if_neg (by simp [hsemicolon])]
    exact ⟨_, rfl⟩
  obtain ⟨t, ht⟩ := hcut
  obtain ⟨hne, p', hp'⟩ := exists_parseParam?_eq hblank hequals t
  have hsplit := Quoted.split_of_cut (Prod.ext ht rfl) hne
  rw [hsplit, List.filterMap_cons_some hp'] at h
  obtain ⟨rfl, hrest⟩ := List.cons.inj h
  have hcount : (Quoted.cut ';' .outside (' ' :: p'.render ++ u)).1.count ';'
      = (' ' :: p'.render).count ';' := by
    rw [ht, ← count_trim (by decide) (' ' :: c :: t), ← count_of_parseParam? hp',
      List.count_cons_of_ne (by decide)]
  obtain ⟨-, hend⟩ := Quoted.cut_of_count hu hcount
  rcases hend with ⟨rfl, q, hs⟩ | ⟨hv, hs⟩
  · cases hs with
    | cons _ hs => exact .inl ⟨rfl, q, hs⟩
  · cases hs with
    | cons _ hs => exact .inr ⟨_, hv, hs, hrest⟩

/-- Where parameters are read back behind a delimiter, the delimiters keep them apart. -/
theorem keptApart_of_filterMap {p : Param} {params : List Param} (hp : p.Keyed)
    (hparams : ∀ q ∈ params, q.Keyed)
    (h : (Quoted.split ';' (' ' :: p.render ++ renderParams params)).filterMap parseParam?
      = p :: params) : Quoted.KeptApart ';' (p.render :: params.map Param.render) := by
  induction params generalizing p with
  | nil =>
    rcases spans_of_filterMap hp (.inl rfl) h with ⟨-, q, hs⟩ | ⟨v, hv, -⟩
    · exact .last hs
    · cases hv
  | cons q params ih =>
    obtain ⟨hq, hparams⟩ := List.forall_mem_cons.1 hparams
    rcases spans_of_filterMap hp (.inr rfl) h with ⟨hnil, -⟩ | ⟨v, hv, hs, hrest⟩
    · cases hnil
    · obtain rfl : ' ' :: q.render ++ renderParams params = v := (List.cons.inj hv).2
      exact .cons hs (ih hq hparams hrest)

/-- What reading an entry comes to. -/
theorem exists_of_parse? {entry : List Char} {c : Config} (h : parse? entry = some c) :
    (trimStart entry).head? ≠ some ';'
      ∧ ∃ first parts, Quoted.split ';' entry = first :: parts
        ∧ Quoted.unquote first = c.name.toList ∧ c.name.toList ≠ []
        ∧ parts.filterMap parseParam? = c.params := by
  unfold parse? at h
  split at h
  · cases h
  · next hfirst =>
    refine ⟨hfirst, ?_⟩
    split at h
    · cases h
    · next first parts hsplit =>
      dsimp only at h
      split at h
      · cases h
      · next hempty =>
        obtain rfl := Option.some.inj h
        refine ⟨first, parts, hsplit, String.toList_ofList.symm, ?_, rfl⟩
        rw [String.toList_ofList]
        exact fun hnil => hempty (List.isEmpty_iff.2 hnil)

/-- The parameters of a configuration that was read can be read. -/
theorem keyed_of_parse? {entry : List Char} {c : Config} (h : parse? entry = some c) :
    ∀ p ∈ c.params, p.Keyed := by
  intro p hp
  obtain ⟨-, first, parts, hsplit, -, -, hparams⟩ := exists_of_parse? h
  rw [← hparams] at hp
  obtain ⟨part, hpart, hparse⟩ := List.mem_filterMap.1 hp
  have hquote : ';' ≠ '"' := by decide
  obtain ⟨hsolid, hsemicolon⟩ := Quoted.solid_of_mem_split hquote
    (hsplit ▸ List.mem_cons_of_mem _ hpart)
  exact keyed_of_parseParam? hparse hsolid hsemicolon

/-- What is written is divided where it was put together, if it is read back. -/
theorem rereadable_of_parse? {c : Config} (hkeyed : ∀ p ∈ c.params, p.Keyed)
    (h : parse? c.render = some c) : c.Rereadable := by
  obtain ⟨hstart, first, parts, hsplit, hname, -, hparams⟩ := exists_of_parse? h
  obtain ⟨name, params⟩ := c
  have hrender : render ⟨name, params⟩ = name.toList ++ renderParams params := rfl
  rw [hrender] at hstart hsplit
  dsimp only at hname hparams hkeyed
  obtain ⟨rfl, rfl⟩ := Quoted.cut_of_split (by decide) hsplit hstart
  have hcount : (Quoted.cut ';' .outside (name.toList ++ renderParams params)).1.count ';'
      = name.toList.count ';' := by
    have hread := congrArg (List.count ';') hname
    rwa [Quoted.count_unquote (by decide) (by decide) (by decide), count_trim (by decide)] at hread
  obtain ⟨hcut, hend⟩ := Quoted.cut_of_count (renderParams_cases params) hcount
  rw [hcut, Quoted.unquote_trim] at hname
  refine ⟨hname, ?_⟩
  cases params with
  | nil =>
    rcases hend with ⟨-, q, hs⟩ | ⟨hv, -⟩
    · exact .last hs
    · cases hv
  | cons p params =>
    obtain ⟨hp, hkeyed⟩ := List.forall_mem_cons.1 hkeyed
    rcases hend with ⟨hnil, -⟩ | ⟨hv, hs⟩
    · cases hnil
    · rw [← (List.cons.inj hv).2] at hparams
      exact .cons hs (keptApart_of_filterMap hp hkeyed hparams)

/-- What is divided where it was put together is read back. -/
theorem Rereadable.parse?_render {c : Config} (h : c.Rereadable) (hne : c.name.toList ≠ [])
    (hkeyed : ∀ p ∈ c.params, p.Keyed) : parse? c.render = some c := by
  have hsolid := Quoted.solid_of_unquote h.name hne
  have hstart : (trimStart c.render).head? ≠ some ';' := by
    obtain ⟨d, hd, hblank⟩ := hsolid.1
    obtain ⟨s, hs⟩ := List.head?_eq_some_iff.1 hd
    have hspans : (trimStart c.name.toList).head? ≠ some ';' := by
      obtain ⟨q, hs⟩ := h.apart.exists_spans
      exact hs.head?_trimStart (by decide)
    rw [hsolid.trimStart_eq, hs, List.head?_cons] at hspans
    rw [render, hs, List.cons_append, trimStart, List.dropWhile_cons_of_neg hblank,
      List.head?_cons]
    exact hspans
  have hsplit : Quoted.split ';' c.render = c.name.toList :: c.params.map Param.render := by
    have hrender : ∀ s ∈ c.params.map Param.render, Solid s := by
      intro s hs
      obtain ⟨p, hp, rfl⟩ := List.mem_map.1 hs
      exact (hkeyed p hp).solid_render
    have hname : trim c.name.toList ≠ [] := by
      rw [hsolid.trim_eq]
      exact hne
    have hall := Quoted.split_of_keptApart (by decide) (by decide) h.apart hname hrender
    rw [List.flatMap_map, hsolid.trim_eq] at hall
    exact hall
  have hparams : (c.params.map Param.render).filterMap parseParam? = c.params := by
    have hall : ∀ p ∈ c.params, (parseParam? ∘ Param.render) p = some p := fun p hp =>
      parseParam?_render_of_keyed (hkeyed p hp)
    rw [List.filterMap_map, List.filterMap_congr hall, List.filterMap_some]
  have hempty : ¬c.name.toList.isEmpty := fun hnil => hne (List.isEmpty_iff.1 hnil)
  rw [parse?, if_neg hstart, hsplit]
  dsimp only
  rw [h.name, if_neg hempty, hparams, String.ofList_toList]

/-- **A configuration that was read is written in such a way that it is read again**, exactly if
its written form is divided where it was put together. -/
theorem parse?_render_iff {entry : List Char} {c : Config} (h : parse? entry = some c) :
    parse? c.render = some c ↔ c.Rereadable := by
  have hkeyed := keyed_of_parse? h
  obtain ⟨-, -, -, -, -, hne, -⟩ := exists_of_parse? h
  constructor
  · exact rereadable_of_parse? hkeyed
  · intro hre
    exact hre.parse?_render hne hkeyed

/-- A quoted name with a blank in it, the name of a parameter with a semicolon in quotes, and a
parameter without a value behind an empty part. -/
theorem parse?_render_iff_of_quotes :
    let entry := "\"x y\";  a\"b;c\"d = e f ;; k".toList
    let c : Config := ⟨"x y", [⟨"a\"b;c\"d", some "e f"⟩, ⟨"k", none⟩]⟩
    parse? entry = some c ∧ parse? c.render = some c ∧ c.Rereadable := by
  intro entry c
  have hread : parse? entry = some c := by decide +kernel
  have hagain : parse? c.render = some c := by decide +kernel
  exact ⟨hread, hagain, (parse?_render_iff hread).1 hagain⟩

/-- A name that was quoted is written without quotes, and is then cut at its semicolon. -/
theorem parse?_render_of_quoted_name :
    let entry := "\"c;d\"".toList
    parse? entry = some ⟨"c;d", []⟩ ∧ parse? (render ⟨"c;d", []⟩) = some ⟨"c", [⟨"d", none⟩]⟩
      ∧ ¬∀ entry c, parse? entry = some c → parse? c.render = some c := by
  intro entry
  have hread : parse? entry = some ⟨"c;d", []⟩ := by decide +kernel
  have hagain : parse? (render ⟨"c;d", []⟩) = some ⟨"c", [⟨"d", none⟩]⟩ := by decide +kernel
  refine ⟨hread, hagain, fun hall => ?_⟩
  have hsame := hall entry _ hread
  rw [hagain] at hsame
  exact absurd (Option.some.inj hsame) (by decide)

end Config

end WebSocket.Extension
