/-
WebSocket/Proofs/Handshake/HeaderLines.lean

Responses with the same headers in different lines.

A response is accepted or refused by what is found under the names of five headers, so two of
them are accepted alike where the checks of these headers come out alike (`validate_congr`).

A list of extensions may be spread over several lines or stand in a single one
(`validate_of_joined_lines`), as long as each line closes its quotes.  The tokens of `Upgrade`
and `Connection` are looked for in one line after the other, and a line that is not visible ends
the search with an error.  So the order of the lines makes no difference just where all of them
are visible, or none of the visible ones lists the token (`FoundInAnyOrder`); otherwise a token
is there that is found in one order and not in another (`found_in_one_order`).
-/
import WebSocket.Proofs.Handshake.Validation
import WebSocket.Proofs.Text.Balanced

namespace WebSocket.Handshake

open Text Extension

/-! ### Responses that differ in their headers -/

section

variable {α β γ : Type} {h : β → γ}

/-- Results behind the same computation differ as they do behind what it gives. -/
theorem bind_eq_map {x : Except Error α} {f : α → Except Error γ} {g : α → Except Error β}
    (hfg : ∀ a, f a = (g a).map h) : x >>= f = (x >>= g).map h := by
  rcases x with e | a
  · rfl
  · exact hfg a

theorem guard_eq_map {fact : Prop} [Decidable (¬fact)] {error : Error}
    {f : Unit → Except Error γ} {g : Unit → Except Error β} (hfg : f () = (g ()).map h) :
    (if ¬fact then (throw error : Except Error Unit) >>= f else f ())
      = (if ¬fact then (throw error : Except Error Unit) >>= g else g ()).map h := by
  split
  · rfl
  · exact hfg

end

/-- Responses are accepted alike where the checks of their headers come out alike. -/
theorem validate_congr {request : Request} {response : Response} {headers : Http.Headers}
    (hupgrade : expectHeader headers "Upgrade" "websocket"
      = expectHeader response.headers "Upgrade" "websocket")
    (hconnection : expectHeader headers "Connection" "upgrade"
      = expectHeader response.headers "Connection" "upgrade")
    (haccept : headers.getAll acceptHeader = response.headers.getAll acceptHeader)
    (hextensions : readExtensions (headers.getAll extensionsHeader)
      = readExtensions (response.headers.getAll extensionsHeader))
    (hprotocol : headers.getAll protocolHeader = response.headers.getAll protocolHeader) :
    validate request { response with headers }
      = (validate request response).map fun accepted => { accepted with headers } := by
  have hanswer : checkAccept headers request.key = checkAccept response.headers request.key := by
    unfold checkAccept Http.Headers.get?
    rw [haccept]
  have hread : readProtocol headers request.protocols
      = readProtocol response.headers request.protocols := by
    rw [readProtocol_eq, readProtocol_eq, hprotocol]
  unfold validate
  dsimp only
  rw [hupgrade, hconnection, hanswer, hextensions, hread]
  refine guard_eq_map (guard_eq_map ?_)
  refine bind_eq_map fun _ => bind_eq_map fun _ => bind_eq_map fun _ => ?_
  exact bind_eq_map fun extensions => bind_eq_map fun protocol => rfl

/-! ### Extensions in several lines -/

theorem readEntries_append (entries more : List (List Char)) :
    readEntries (entries ++ more) = readEntries entries >>= fun configs =>
      readEntries more >>= fun others => .ok (configs ++ others) := by
  induction entries with
  | nil =>
    rcases hmore : readEntries more with e | others
    · exact hmore
    · exact hmore
  | cons entry entries ih =>
    rw [List.cons_append, readEntries_cons, readEntries_cons, ih]
    rcases Config.parse? entry with - | config
    · rfl
    · rcases readEntries entries with e | configs
      · rfl
      · rcases readEntries more with e | others
        · rfl
        · rfl

/-- Of lines that are texts, the entries are read one after the other. -/
theorem readExtensions_map_encode (texts : List (List Char)) :
    readExtensions (texts.map Utf8.encode) = readEntries (texts.flatMap (Quoted.split ',')) := by
  induction texts with
  | nil => rfl
  | cons text texts ih =>
    rw [List.map_cons, readExtensions_cons, readText_eq_ok_iff.2 rfl, ih, List.flatMap_cons,
      readEntries_append]
    rfl

theorem encode_intercalate (texts : List (List Char)) :
    Utf8.encode ([','].intercalate texts) = [0x2c].intercalate (texts.map Utf8.encode) := by
  induction texts with
  | nil => rfl
  | cons text texts ih =>
    cases texts with
    | nil => rw [List.intercalate_singleton, List.map_singleton, List.intercalate_singleton]
    | cons text' texts =>
      rw [List.map_cons] at ih
      rw [List.intercalate_cons_cons, List.map_cons, List.map_cons, List.intercalate_cons_cons,
        ← ih, Utf8.encode_append, Utf8.encode_append]
      rfl

/-- Lines that close their quotes have the same extensions as the one line that they make up. -/
theorem readExtensions_intercalate {texts : List (List Char)}
    (h : ∀ text ∈ texts, Quoted.Balanced text) :
    readExtensions [[0x2c].intercalate (texts.map Utf8.encode)]
      = readExtensions (texts.map Utf8.encode) := by
  have hquote : ',' ≠ '"' := by decide
  rw [← encode_intercalate, ← List.map_singleton, readExtensions_map_encode,
    readExtensions_map_encode, List.flatMap_singleton,
    Quoted.split_intercalate hquote fun text htext => h text (List.dropLast_subset _ htext)]

/-- **A list of extensions may be spread over lines.**  Responses are accepted alike if one of
them has in several lines, each of which closes its quotes, what the other one has in a single
line with commas in between, and all else is equal: either with the same extensions in the same
order, and the same subprotocol, or not at all and for the same reason. -/
theorem validate_of_joined_lines (request : Request) (response : Response)
    (headers : Http.Headers) (texts : List (List Char))
    (hbalanced : ∀ text ∈ texts, Quoted.Balanced text)
    (hlines : response.headers.getAll extensionsHeader = texts.map Utf8.encode)
    (hjoined : headers.getAll extensionsHeader = [[0x2c].intercalate (texts.map Utf8.encode)])
    (hothers : headers.AgreeBut [extensionsHeader] response.headers) :
    validate request { response with headers }
      = (validate request response).map fun accepted => { accepted with headers } := by
  have hexpect {name : String}
      (hname : Http.lowerName name ∉ [extensionsHeader].map Http.lowerName) (token : String) :
      expectHeader headers name token = expectHeader response.headers name token := by
    unfold expectHeader
    rw [hothers name hname]
  refine validate_congr (hexpect (by decide +kernel) _) (hexpect (by decide +kernel) _)
    (hothers _ (by decide +kernel)) ?_ (hothers _ (by decide +kernel))
  rw [hjoined, hlines, readExtensions_intercalate hbalanced]

/-- Three lines with quoted commas, blank entries and a blank line, and the one that they make
up. -/
theorem validate_of_joined_lines_of_quoted :
    let request : Request := { host := "a.b", resource := "/", key := "AAAAAAAAAAAAAAAAAAAAAA==" }
    let texts : List (List Char) :=
      ["a; x=\"1,\\\"2\" ,, b".toList, " ".toList, ",c; y".toList]
    let response : Response := .accepting request.key (texts.map Utf8.encode)
    let joined := Bytes.ofLatin "a; x=\"1,\\\"2\" ,, b, ,,c; y"
    let other : Response := .accepting request.key [joined]
    (∀ text ∈ texts, Quoted.Balanced text)
      ∧ response.headers.getAll extensionsHeader = texts.map Utf8.encode
      ∧ other.headers.getAll extensionsHeader = [[0x2c].intercalate (texts.map Utf8.encode)]
      ∧ other.headers.AgreeBut [extensionsHeader] response.headers
      ∧ ∃ accepted, validate request response = .ok accepted
        ∧ accepted.extensions.map Config.name = ["a", "b", "c"]
        ∧ validate request other = .ok { accepted with headers := other.headers } := by
  intro request texts response joined other
  have hbalanced : ∀ text ∈ texts, Quoted.Balanced text := by decide +kernel
  have hlines : response.headers.getAll extensionsHeader = texts.map Utf8.encode := rfl
  have hjoined : other.headers.getAll extensionsHeader
      = [[0x2c].intercalate (texts.map Utf8.encode)] := by
    decide +kernel
  have hothers : other.headers.AgreeBut [extensionsHeader] response.headers := by
    have hmem : "sec-websocket-extensions" ∈ [extensionsHeader].map Http.lowerName := by
      decide +kernel
    exact Http.Headers.agreeBut_of_forall₂ <|
      .cons ⟨rfl, .inl rfl⟩ (.cons ⟨rfl, .inl rfl⟩ (.cons ⟨rfl, .inl rfl⟩
        (.cons ⟨rfl, .inr hmem⟩ .nil)))
  have hread : readExtensions (texts.map Utf8.encode) = .ok
      [{ name := "a", params := [{ name := "x", value := some "1,\"2" }] }, { name := "b" },
        { name := "c", params := [{ name := "y" }] }] := by
    decide +kernel
  have haccepted := validate_accepting request hread
  refine ⟨hbalanced, hlines, hjoined, hothers, _, haccepted, by decide +kernel, ?_⟩
  have h := validate_of_joined_lines request response other.headers texts hbalanced hlines hjoined
    hothers
  rw [haccepted] at h
  exact h

/-! ### Tokens in several lines -/

section

variable {token : String} {lines lines' : List Bytes}

/-- Whether a token is found does not depend on the order of the lines: nothing ends the search
for it, or there is nothing to find. -/
def FoundInAnyOrder (token : String) (lines : List Bytes) : Prop :=
  (∀ line ∈ lines, Http.isVisible line) ∨ ∀ line ∈ lines, Http.isVisible line → ¬Lists token line

/-- Among visible lines it is enough that one of them lists the token. -/
theorem listedIn_iff_of_visible (h : ∀ line ∈ lines, Http.isVisible line) :
    ListedIn token lines ↔ ∃ line ∈ lines, Lists token line := by
  constructor
  · rintro ⟨front, line, back, rfl, -, -, hlists⟩
    exact ⟨line, List.mem_append_right _ List.mem_cons_self, hlists⟩
  · rintro ⟨line, hline, hlists⟩
    obtain ⟨front, back, rfl⟩ := List.append_of_mem hline
    exact ⟨front, line, back, rfl, fun l hl => h l (List.mem_append_left _ hl), h line hline,
      hlists⟩

theorem not_listedIn_of_forall (h : ∀ line ∈ lines, Http.isVisible line → ¬Lists token line) :
    ¬ListedIn token lines := by
  rintro ⟨front, line, back, rfl, -, hvisible, hlists⟩
  exact h line (List.mem_append_right _ List.mem_cons_self) hvisible hlists

theorem listedIn_perm (h : FoundInAnyOrder token lines) (hperm : lines'.Perm lines) :
    ListedIn token lines' ↔ ListedIn token lines := by
  rcases h with hvisible | hnone
  · have hvisible' : ∀ line ∈ lines', Http.isVisible line :=
      fun line hline => hvisible line (hperm.mem_iff.1 hline)
    rw [listedIn_iff_of_visible hvisible, listedIn_iff_of_visible hvisible']
    simp only [hperm.mem_iff]
  · have hnone' : ∀ line ∈ lines', Http.isVisible line → ¬Lists token line :=
      fun line hline => hnone line (hperm.mem_iff.1 hline)
    exact iff_of_false (not_listedIn_of_forall hnone') (not_listedIn_of_forall hnone)

/-- Only then the order makes no difference: otherwise the token is found if the line that lists
it comes first, and is not found if one that is not visible does. -/
theorem forall_perm_listedIn_iff :
    (∀ lines', lines'.Perm lines → (ListedIn token lines' ↔ ListedIn token lines))
      ↔ FoundInAnyOrder token lines := by
  refine ⟨fun h => ?_, fun h lines' => listedIn_perm h⟩
  rw [FoundInAnyOrder, or_iff_not_imp_left]
  intro hhidden line hline hvisible hlists
  push Not at hhidden
  obtain ⟨hidden, hmem, hhidden⟩ := hhidden
  have hfound : ListedIn token (line :: lines.erase line) :=
    listedIn_cons.2 ⟨hvisible, .inl hlists⟩
  have hlost : ¬ListedIn token (hidden :: lines.erase hidden) :=
    fun hlisted => hhidden (listedIn_cons.1 hlisted).1
  rw [h _ (List.perm_cons_erase hline).symm] at hfound
  rw [h _ (List.perm_cons_erase hmem).symm] at hlost
  exact hlost hfound

end

section

variable {headers headers' : Http.Headers} {name token : String}

theorem expectHeader_eq_ok_iff :
    expectHeader headers name token = .ok () ↔ ListedIn token (headers.getAll name) := by
  unfold expectHeader
  rcases headers.getAll name with - | ⟨line, lines⟩
  · exact iff_of_false (fun h => by cases h) not_listedIn_nil
  · rcases expectToken_cases name token (line :: lines) with ⟨hlisted, h⟩ | ⟨hlisted, h⟩
    · exact iff_of_true h hlisted
    · exact iff_of_false (fun hok => by cases h.symm.trans hok) hlisted

/-- The error says whether there is a line at all. -/
theorem expectHeader_of_not_listedIn (h : ¬ListedIn token (headers.getAll name)) :
    expectHeader headers name token = .error
      (if headers.getAll name = [] then .headerNotFound name else .unexpectedHeader name) := by
  unfold expectHeader
  rcases hlines : headers.getAll name with - | ⟨line, lines⟩
  · rfl
  · rw [hlines] at h
    rcases expectToken_cases name token (line :: lines) with ⟨hlisted, -⟩ | ⟨-, herror⟩
    · exact absurd hlisted h
    · exact herror

theorem expectHeader_congr
    (hlisted : ListedIn token (headers'.getAll name) ↔ ListedIn token (headers.getAll name))
    (hnil : headers'.getAll name = [] ↔ headers.getAll name = []) :
    expectHeader headers' name token = expectHeader headers name token := by
  by_cases h : ListedIn token (headers.getAll name)
  · rw [expectHeader_eq_ok_iff.2 h, expectHeader_eq_ok_iff.2 (hlisted.2 h)]
  · rw [expectHeader_of_not_listedIn h, expectHeader_of_not_listedIn (mt hlisted.1 h)]
    simp only [hnil]

theorem expectHeader_perm (h : FoundInAnyOrder token (headers.getAll name))
    (hperm : (headers'.getAll name).Perm (headers.getAll name)) :
    expectHeader headers' name token = expectHeader headers name token := by
  refine expectHeader_congr (listedIn_perm h hperm) ⟨fun hnil => ?_, fun hnil => ?_⟩
  · exact (hnil ▸ hperm).nil_eq.symm
  · exact (hnil ▸ hperm).eq_nil

end

/-- **A token is found whatever the order of the lines is**, if all of them are visible, or if no
visible one lists the token; only then the order makes no difference.

A token is found if a line lists it between its commas, but for blanks and case, and no line up to
there is invisible, so among visible lines it is enough that one of them lists it.  Without a
line there is nothing to look at, and that is another error.  Hence responses that have the lines
of `Upgrade` and `Connection` in different orders are accepted alike, if both tokens are found in
any order. -/
theorem found_in_any_order (headers : Http.Headers) (name token : String) (request : Request)
    (response : Response) :
    ((expectHeader headers name token = .ok () ↔ ListedIn token (headers.getAll name))
        ∧ (¬ListedIn token (headers.getAll name) → expectHeader headers name token = .error
          (if headers.getAll name = [] then .headerNotFound name else .unexpectedHeader name))
        ∧ ((∀ line ∈ headers.getAll name, Http.isVisible line) →
          (expectHeader headers name token = .ok ()
            ↔ ∃ line ∈ headers.getAll name, Lists token line))
        ∧ ((∀ headers' : Http.Headers, (headers'.getAll name).Perm (headers.getAll name) →
            expectHeader headers' name token = expectHeader headers name token)
          ↔ FoundInAnyOrder token (headers.getAll name)))
      ∧ ((headers.getAll "Upgrade").Perm (response.headers.getAll "Upgrade") →
        (headers.getAll "Connection").Perm (response.headers.getAll "Connection") →
        headers.AgreeBut ["Upgrade", "Connection"] response.headers →
        FoundInAnyOrder "websocket" (response.headers.getAll "Upgrade") →
        FoundInAnyOrder "upgrade" (response.headers.getAll "Connection") →
        validate request { response with headers }
          = (validate request response).map fun accepted => { accepted with headers }) := by
  constructor
  · refine ⟨expectHeader_eq_ok_iff, expectHeader_of_not_listedIn, fun hvisible => ?_, ?_⟩
    · rw [expectHeader_eq_ok_iff, listedIn_iff_of_visible hvisible]
    · refine ⟨fun h => forall_perm_listedIn_iff.1 fun lines hperm => ?_,
        fun h headers' => expectHeader_perm h⟩
      -- Any lines are found in some headers.
      obtain ⟨headers', rfl⟩ := Http.Headers.exists_getAll_eq name lines
      rw [← expectHeader_eq_ok_iff, ← expectHeader_eq_ok_iff, h headers' hperm]
  · intro hupgrade hconnection hothers hfound hfound'
    have hother {name : String}
        (hname : Http.lowerName name ∉ ["Upgrade", "Connection"].map Http.lowerName) :
        headers.getAll name = response.headers.getAll name :=
      hothers name hname
    refine validate_congr (expectHeader_perm hfound hupgrade)
      (expectHeader_perm hfound' hconnection) (hother (by decide +kernel)) ?_
      (hother (by decide +kernel))
    rw [hother (by decide +kernel)]

/-- The response of a server that accepts a request with this key, with these lines of `Upgrade`
and `Connection`. -/
def Response.upgrading (key : String) (upgrade connection : List Bytes) : Response where
  version := .http11
  status := 101
  reason := ""
  headers := { groups := [("upgrade", upgrade), ("connection", connection),
    ("sec-websocket-accept", [answerTo key])] }

theorem validate_upgrading (request : Request) {upgrade connection : List Bytes}
    (hupgrade : ListedIn "websocket" upgrade) (hconnection : ListedIn "upgrade" connection) :
    validate request (.upgrading request.key upgrade connection)
      = .ok (.upgrading request.key upgrade connection) := by
  have haccept : (Response.upgrading request.key upgrade connection).headers.get? acceptHeader
      = some (answerTo request.key) := by
    rfl
  refine validate_eq_ok_iff.2 ⟨rfl, rfl, expectHeader_eq_ok_iff.2 hupgrade,
    expectHeader_eq_ok_iff.2 hconnection, ?_, [], rfl, none, rfl, rfl⟩
  simp [checkAccept, haccept, answerTo, acceptKey]

/-- The lines of both headers in another order, some of which list other tokens as well. -/
theorem found_in_any_order_of_other_tokens :
    let request : Request := { host := "a.b", resource := "/", key := "AAAAAAAAAAAAAAAAAAAAAA==" }
    let upgrade := [Bytes.ofLatin "h2c", Bytes.ofLatin "x, WebSocket"]
    let connection := [Bytes.ofLatin "keep-alive", Bytes.ofLatin " upgrade ,y"]
    let response : Response := .upgrading request.key upgrade connection
    let other : Response := .upgrading request.key upgrade.reverse connection.reverse
    (other.headers.getAll "Upgrade").Perm (response.headers.getAll "Upgrade")
      ∧ (other.headers.getAll "Connection").Perm (response.headers.getAll "Connection")
      ∧ other.headers.AgreeBut ["Upgrade", "Connection"] response.headers
      ∧ FoundInAnyOrder "websocket" (response.headers.getAll "Upgrade")
      ∧ FoundInAnyOrder "upgrade" (response.headers.getAll "Connection")
      ∧ validate request response = .ok response ∧ validate request other = .ok other := by
  intro request upgrade connection response other
  have hupgrade : (other.headers.getAll "Upgrade").Perm (response.headers.getAll "Upgrade") :=
    List.reverse_perm upgrade
  have hconnection :
      (other.headers.getAll "Connection").Perm (response.headers.getAll "Connection") :=
    List.reverse_perm connection
  have hothers : other.headers.AgreeBut ["Upgrade", "Connection"] response.headers :=
    Http.Headers.agreeBut_of_forall₂ <| .cons ⟨rfl, .inr (by decide +kernel)⟩
      (.cons ⟨rfl, .inr (by decide +kernel)⟩ (.cons ⟨rfl, .inl rfl⟩ .nil))
  have hvisible : ∀ line ∈ upgrade, Http.isVisible line := by decide +kernel
  have hvisible' : ∀ line ∈ connection, Http.isVisible line := by decide +kernel
  have hlists : Lists "websocket" (Bytes.ofLatin "x, WebSocket") :=
    listsToken_iff.1 (by decide +kernel)
  have hlists' : Lists "upgrade" (Bytes.ofLatin " upgrade ,y") :=
    listsToken_iff.1 (by decide +kernel)
  have hresponse : validate request response = .ok response :=
    validate_upgrading request
      ((listedIn_iff_of_visible hvisible).2 ⟨_, List.mem_cons_of_mem _ List.mem_cons_self, hlists⟩)
      ((listedIn_iff_of_visible hvisible').2
        ⟨_, List.mem_cons_of_mem _ List.mem_cons_self, hlists'⟩)
  refine ⟨hupgrade, hconnection, hothers, .inl hvisible, .inl hvisible', hresponse, ?_⟩
  have h := (found_in_any_order other.headers "Upgrade" "websocket" request response).2 hupgrade
    hconnection hothers (.inl hvisible) (.inl hvisible')
  rw [hresponse] at h
  exact h

/-- **A token can be found in one order and not in the other.**  The line that lists it ends the
search if it comes first, and otherwise the search ends with the line that is not visible, and
the response is refused. -/
theorem found_in_one_order :
    let request : Request := { host := "a.b", resource := "/", key := "AAAAAAAAAAAAAAAAAAAAAA==" }
    let listing := Bytes.ofLatin "websocket"
    let connection := [Bytes.ofLatin "Upgrade"]
    let response : Response := .upgrading request.key [listing, [0xff]] connection
    let other : Response := .upgrading request.key [[0xff], listing] connection
    (other.headers.getAll "Upgrade").Perm (response.headers.getAll "Upgrade")
      ∧ (∃ line ∈ other.headers.getAll "Upgrade", Lists "websocket" line)
      ∧ expectHeader response.headers "Upgrade" "websocket" = .ok ()
      ∧ expectHeader other.headers "Upgrade" "websocket" = .error (.unexpectedHeader "Upgrade")
      ∧ validate request response = .ok response
      ∧ validate request other = .error (.unexpectedHeader "Upgrade") := by
  intro request listing connection response other
  have hlists : Lists "websocket" listing := listsToken_iff.1 (by decide +kernel)
  have hupgrade : ListedIn "websocket" [listing, [0xff]] :=
    listedIn_cons.2 ⟨by decide +kernel, .inl hlists⟩
  have hconnection : ListedIn "upgrade" connection :=
    listedIn_cons.2 ⟨by decide +kernel, .inl (listsToken_iff.1 (by decide +kernel))⟩
  exact ⟨.swap .., ⟨listing, List.mem_cons_of_mem _ List.mem_cons_self, hlists⟩,
    expectHeader_eq_ok_iff.2 hupgrade, rfl, validate_upgrading request hupgrade hconnection, rfl⟩

end WebSocket.Handshake
