/-
WebSocket/Proofs/Handshake/Offer.lean

The extensions that a request offers are read as they were written.

A written entry is split twice, at the commas between entries and at the semicolons between
parameters, and a parameter is then divided at its first equals sign.  Names are tokens, in
which none of these occurs, and values are quoted where they are no tokens, so that each split
finds the delimiters that were written (`Quoted.split_separated`), and no others.
-/
import WebSocket.Proofs.Extension.Rendering
import WebSocket.Proofs.Handshake.Validation

namespace WebSocket.Extension

open Text

/-! ### Parameters -/

section

variable {p : Param} (hp : Http.isToken p.name.toList)
include hp

theorem Param.element_render {delim : Char} (hdelim : ¬Http.isTokenChar delim)
    (hequals : delim ≠ '=') : Quoted.Element delim p.render := by
  have hname := Quoted.element_of_isToken hdelim hp
  unfold Param.render
  split
  next v _ =>
    have hvalue := Quoted.element_quoteIfNeeded hdelim v.toList
    have hspans : Quoted.Spans delim .outside ('=' :: Quoted.quoteIfNeeded v.toList) .outside :=
      .cons (fun hc => hequals hc.2.1.symm) hvalue.spans
    refine ⟨hname.spans.append hspans, ?_⟩
    rw [← List.singleton_append, ← List.append_assoc]
    exact hname.solid.append _ hvalue.solid
  next => exact hname

theorem Param.keyed_of_isToken : p.Keyed := by
  obtain ⟨-, hall⟩ := isToken_iff.1 hp
  refine ⟨solid_of_isToken hp, ?_, ?_⟩
  · exact fun h => absurd (hall '=' h) (by decide)
  · exact fun h => absurd (hall ';' (List.mem_of_mem_head? h)) (by decide)

end

/-! ### Entries -/

namespace Config

/-- The names of an extension and of its parameters are tokens. -/
def NamesAreTokens (c : Config) : Prop :=
  Http.isToken c.name.toList ∧ ∀ p ∈ c.params, Http.isToken p.name.toList

instance (c : Config) : Decidable c.NamesAreTokens :=
  inferInstanceAs (Decidable (_ ∧ _))

variable {c : Config} (hc : c.NamesAreTokens)
include hc

/-- The semicolons of an entry that count are those in front of its parameters. -/
theorem rereadable_of_names : c.Rereadable := by
  have hname : Quoted.Element ';' c.name.toList := Quoted.element_of_isToken (by decide) hc.1
  refine ⟨Quoted.unquote_of_isToken hc.1, hname.keptApart ?_⟩
  intro s hs
  obtain ⟨p, hp, rfl⟩ := List.mem_map.1 hs
  exact p.element_render (hc.2 p hp) (by decide) (by decide)

/-- **An entry is read as it was written.** -/
theorem parse?_render : parse? c.render = some c := by
  apply (rereadable_of_names hc).parse?_render
  · exact (isToken_iff.1 hc.1).1
  · exact fun p hp => Param.keyed_of_isToken (hc.2 p hp)

omit hc in
/-- Parameters can be written behind any element. -/
theorem element_append_params {params : List Param} {s : List Char}
    (hparams : ∀ p ∈ params, Http.isToken p.name.toList) (hs : Quoted.Element ',' s) :
    Quoted.Element ',' (s ++ params.flatMap fun p => [';', ' '] ++ p.render) := by
  induction params generalizing s with
  | nil => rwa [List.flatMap_nil, List.append_nil]
  | cons p params ih =>
    obtain ⟨hp, hparams⟩ := List.forall_mem_cons.1 hparams
    have hrender : Quoted.Element ',' p.render := p.element_render hp (by decide) (by decide)
    have hbetween : Quoted.Spans ',' .outside [';', ' '] .outside := .of_plain (by simp)
    rw [List.flatMap_cons, ← List.append_assoc, ← List.append_assoc]
    exact ih hparams ⟨(hs.spans.append hbetween).append hrender.spans,
      hs.solid.append _ hrender.solid⟩

/-- The commas in an entry do not count. -/
theorem element_render : Quoted.Element ',' c.render :=
  element_append_params hc.2 (Quoted.element_of_isToken (by decide) hc.1)

end Config

end WebSocket.Extension

namespace WebSocket.Handshake

open Text Extension

/-! ### Offers -/

theorem commaSeparated_cons (s : List Char) (others : List (List Char)) :
    Request.commaSeparated (s :: others) = s ++ others.flatMap fun t => [',', ' '] ++ t := by
  unfold Request.commaSeparated
  induction others generalizing s with
  | nil => rw [List.intercalate_singleton, List.flatMap_nil, List.append_nil]
  | cons t others ih =>
    rw [List.intercalate_cons_cons, ih, List.flatMap_cons, List.append_assoc, List.append_assoc]

/-- The commas that count are those between the entries. -/
theorem split_commaSeparated {configs : List Config} (h : ∀ c ∈ configs, c.NamesAreTokens) :
    Quoted.split ',' (Request.commaSeparated (configs.map Config.render))
      = configs.map Config.render := by
  cases configs with
  | nil => rw [List.map_nil, Request.commaSeparated, List.intercalate_nil, Quoted.split]
  | cons c configs =>
    obtain ⟨hc, hconfigs⟩ := List.forall_mem_cons.1 h
    have hothers : ∀ s ∈ configs.map Config.render, Quoted.Element ',' s := by
      intro s hs
      obtain ⟨d, hd, rfl⟩ := List.mem_map.1 hs
      exact Config.element_render (hconfigs d hd)
    rw [List.map_cons, commaSeparated_cons, Quoted.split_separated (by decide) (by decide)
      (Config.element_render hc) hothers]

/-- The lines of a request are in what is sent. -/
theorem exists_encode_eq {r : Request} {line : Bytes} (h : line ∈ r.headLines) :
    ∃ front back, r.encode = front ++ (line ++ Request.lineEnd) ++ back := by
  obtain ⟨above, below, hlines⟩ := List.append_of_mem h
  refine ⟨above.flatMap fun l => l ++ Request.lineEnd,
    (below.flatMap fun l => l ++ Request.lineEnd) ++ Request.lineEnd, ?_⟩
  rw [Request.encode, hlines, List.flatMap_append, List.flatMap_cons]
  simp only [List.append_assoc]

theorem extensions_mem_headLines {r : Request} (h : r.extensions ≠ []) :
    Request.headerLine extensionsHeader
      (Request.commaSeparated (r.extensions.map Config.render)) ∈ r.headLines := by
  have hempty : r.extensions.isEmpty = false := List.isEmpty_eq_false_iff.2 h
  unfold Request.headLines
  rw [hempty]
  simp [extensionsHeader]

/-- **Extensions are offered as they are.**  The names in a request are tokens, and the values of
parameters are any texts or absent.  Where there are extensions, a header line with a value for
them is sent.  Reading this value, entry by entry, gives the same extensions with the same
parameters, and so does reading it the way in which responses are read. -/
theorem extensions_of_offer (r : Request) (h : ∀ c ∈ r.extensions, c.NamesAreTokens) :
    let value := Request.commaSeparated (r.extensions.map Config.render)
    (r.extensions ≠ [] → ∃ front back, r.encode
        = front ++ (Request.headerLine extensionsHeader value ++ Request.lineEnd) ++ back)
      ∧ (Quoted.split ',' value).map Config.parse? = r.extensions.map some
      ∧ readExtensions [Utf8.encode value] = .ok r.extensions := by
  intro value
  have hsplit : (Quoted.split ',' value).map Config.parse? = r.extensions.map some := by
    rw [split_commaSeparated h, List.map_map]
    exact List.map_congr_left fun c hc => Config.parse?_render (h c hc)
  refine ⟨fun hne => exists_encode_eq (extensions_mem_headLines hne), hsplit, ?_⟩
  rw [readExtensions_eq_ok_iff]
  refine ⟨[value], rfl, ?_⟩
  rw [List.flatMap_singleton, hsplit]

/-- Values with everything that counts elsewhere, an empty one and an absent one. -/
theorem extensions_of_offer_of_quoted :
    let configs : List Config :=
      [{ name := "a", params := [{ name := "x", value := some "\"p\\q\", r; s=t" },
          { name := "y", value := some "" }, { name := "z" }] },
        { name := "b", params := [{ name := "x", value := some " é " }] }]
    let value := "a; x=\"\\\"p\\\\q\\\", r; s=t\"; y=\"\"; z, b; x=\" é \"".toList
    let request : Request :=
      { host := "a.b", resource := "/", key := "AAAAAAAAAAAAAAAAAAAAAA==", extensions := configs }
    (∀ c ∈ configs, c.NamesAreTokens)
      ∧ (∃ front back, request.encode
        = front ++ (Request.headerLine extensionsHeader value ++ Request.lineEnd) ++ back)
      ∧ (Quoted.split ',' value).map Config.parse? = configs.map some := by
  intro configs value request
  have hnames : ∀ c ∈ configs, c.NamesAreTokens := by decide +kernel
  have hvalue : Request.commaSeparated (configs.map Config.render) = value := by decide +kernel
  obtain ⟨hsent, hread, -⟩ := extensions_of_offer request hnames
  rw [hvalue] at hsent hread
  exact ⟨hnames, hsent nofun, hread⟩

end WebSocket.Handshake
