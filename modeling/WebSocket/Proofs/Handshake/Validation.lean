/-
WebSocket/Proofs/Handshake/Validation.lean

What a response is checked for, and what is recorded of it.

The header lines under a name are read in different ways: the tokens of `Upgrade` and
`Connection` may be in any line, the answer to the key and the subprotocol are in the first
line, and extensions are in all lines.  `checks` says what each of these checks asks for,
`validate_exact` that these are the checks that are made, in this order.
-/
import WebSocket.Proofs.Handshake.Checks
import WebSocket.Proofs.Handshake.Negotiation
import WebSocket.Proofs.Http.ResponseHead

namespace WebSocket.Text

theorem pieces_eq_splitOn (delim : Char) (s : List Char) : pieces delim s = s.splitOn delim := by
  induction s with
  | nil => rfl
  | cons c s ih =>
    rw [List.splitOn_cons_eq_if_modifyHead, pieces, ih]
    by_cases hc : c = delim
    · simp [hc]
    · simp only [hc, beq_iff_eq, if_false]
      rcases hs : s.splitOn delim with _ | ⟨piece, others⟩
      · exact absurd hs (List.splitOn_ne_nil delim s)
      · rfl

end WebSocket.Text

namespace WebSocket.Handshake

open Text Extension Check

/-! ### Tokens in header lines -/

/-- A line lists a token between its commas, but for blanks around it and for case. -/
def Lists (token : String) (line : Bytes) : Prop :=
  ∃ part ∈ (latin line).splitOn ',', eqIgnoreCase (trim part) token.toList

theorem listsToken_iff {token : String} {line : Bytes} :
    listsToken token line ↔ Lists token line := by
  rw [listsToken, List.any_eq_true, pieces_eq_splitOn]
  exact Iff.rfl

/-- One of the lines lists a token, and there is nothing invisible up to there. -/
def ListedIn (token : String) (lines : List Bytes) : Prop :=
  ∃ front line back, lines = front ++ line :: back
    ∧ (∀ l ∈ front, Http.isVisible l) ∧ Http.isVisible line ∧ Lists token line

theorem not_listedIn_nil {token : String} : ¬ListedIn token [] := by
  rintro ⟨front, line, back, h, -⟩
  exact absurd h (by simp)

theorem listedIn_cons {token : String} {line : Bytes} {lines : List Bytes} :
    ListedIn token (line :: lines) ↔
      Http.isVisible line ∧ (Lists token line ∨ ListedIn token lines) := by
  constructor
  · rintro ⟨front, l, back, hlines, hfront, hvisible, hl⟩
    cases front with
    | nil =>
      cases hlines
      exact ⟨hvisible, .inl hl⟩
    | cons l' front =>
      cases hlines
      obtain ⟨hline, hfront⟩ := List.forall_mem_cons.1 hfront
      exact ⟨hline, .inr ⟨front, l, back, rfl, hfront, hvisible, hl⟩⟩
  · rintro ⟨hvisible, hl | ⟨front, l, back, rfl, hfront, hl⟩⟩
    · exact ⟨[], line, lines, rfl, List.forall_mem_nil _, hvisible, hl⟩
    · exact ⟨line :: front, l, back, rfl, List.forall_mem_cons.2 ⟨hvisible, hfront⟩, hl⟩

theorem expectToken_cases (name token : String) (lines : List Bytes) :
    ListedIn token lines ∧ expectToken name token lines = .ok ()
      ∨ ¬ListedIn token lines ∧ expectToken name token lines = .error (.unexpectedHeader name) := by
  induction lines with
  | nil => exact .inr ⟨not_listedIn_nil, rfl⟩
  | cons line lines ih =>
    rw [listedIn_cons, ← listsToken_iff, expectToken]
    by_cases hvisible : Http.isVisible line
    · by_cases hlists : listsToken token line
      · simp [hvisible, hlists]
      · simpa [hvisible, hlists] using ih
    · simp [hvisible]

/-! ### The checks -/

/-- A header lists a token. -/
def tokenCheck (name token : String) (lines : List Bytes) : Check where
  passes := ListedIn token lines
  failsWith e := lines = [] ∧ e = .headerNotFound name
    ∨ lines ≠ [] ∧ ¬ListedIn token lines ∧ e = .unexpectedHeader name

/-- The answer to a key. -/
def answerTo (key : String) : Bytes :=
  Utf8.encode (Base64.encode (Sha1.digest (Utf8.encode key.toList ++ acceptIdentifier)))

/-- The first line is the answer to the key. -/
def acceptCheck (key : String) (lines : List Bytes) : Check where
  passes := lines.head? = some (answerTo key)
  failsWith e := lines = [] ∧ e = .headerNotFound acceptHeader
    ∨ (∃ line ∈ lines.head?, line ≠ answerTo key) ∧ e = .acceptMismatch

/-- All entries of a line can be read. -/
def extensionsCheck (line : Bytes) : Check :=
  ofText line fun text => inTurn ((Quoted.split ',' text).map fun entry =>
    ofFact (∃ config, Config.parse? entry = some config) (.unexpectedHeader extensionsHeader))

/-- A line is one of the subprotocols that were offered, but for blanks around it. -/
def protocolCheck (offered : List String) (line : Bytes) : Check :=
  ofText line fun text => ofFact (∃ name ∈ offered, name.toList = trim text) .unsolicitedProtocol

/-- What a response is checked for, in this order. -/
def checks (request : Request) (response : Response) : List Check :=
  let lines := response.headers.getAll
  [ofFact (response.version = .http11) .unsupportedHttpVersion,
   ofFact (response.status = 101) (.unexpectedStatus response.status),
   tokenCheck "Upgrade" "websocket" (lines "Upgrade"),
   tokenCheck "Connection" "upgrade" (lines "Connection"),
   acceptCheck request.key (lines acceptHeader),
   inTurn ((lines extensionsHeader).map extensionsCheck),
   inTurn ((lines protocolHeader).head?.toList.map (protocolCheck request.protocols))]

theorem madeBy_expectHeader (headers : Http.Headers) (name token : String) :
    (tokenCheck name token (headers.getAll name)).MadeBy (expectHeader headers name token) := by
  unfold expectHeader
  rcases headers.getAll name with _ | ⟨line, lines⟩
  · refine madeBy_error.2 ⟨not_listedIn_nil, fun e => ?_⟩
    simp [tokenCheck]
  · rcases expectToken_cases name token (line :: lines) with ⟨hlisted, h⟩ | ⟨hlisted, h⟩
    · simp only [h]
      refine madeBy_ok.2 ⟨hlisted, fun e => ?_⟩
      simp [tokenCheck, hlisted]
    · simp only [h]
      refine madeBy_error.2 ⟨hlisted, fun e => ?_⟩
      simp [tokenCheck, hlisted]

theorem madeBy_checkAccept (headers : Http.Headers) (key : String) :
    (acceptCheck key (headers.getAll acceptHeader)).MadeBy (checkAccept headers key) := by
  have hanswer : Utf8.encode (acceptKey (Utf8.encode key.toList)).toList = answerTo key := by
    rw [acceptKey, String.toList_ofList, answerTo]
  unfold checkAccept Http.Headers.get?
  rw [hanswer]
  rcases headers.getAll acceptHeader with _ | ⟨line, lines⟩
  · refine madeBy_error.2 ⟨nofun, fun e => ?_⟩
    simp [acceptCheck]
  · dsimp only [List.head?_cons]
    by_cases hline : line = answerTo key
    · rw [if_pos hline]
      refine madeBy_ok.2 ⟨congrArg some hline, fun e => ?_⟩
      simp [acceptCheck, hline]
    · rw [if_neg hline]
      refine madeBy_error.2 ⟨fun hc => hline (Option.some.inj hc), fun e => ?_⟩
      simp [acceptCheck, hline]

example : answerTo "dGhlIHNhbXBsZSBub25jZQ==" = Bytes.ofLatin "s3pPLMBiTxaQ9kYGzzhZRbK+xOo=" := by
  decide +kernel

/-! ### Extensions -/

theorem readEntries_cons (entry : List Char) (entries : List (List Char)) :
    readEntries (entry :: entries)
      = (match Config.parse? entry with
        | none => .error (.unexpectedHeader extensionsHeader)
        | some config => .ok config) >>= fun config =>
          readEntries entries >>= fun configs => .ok (config :: configs) := by
  rw [readEntries]
  rcases Config.parse? entry with _ | config
  · rfl
  · rfl

theorem readExtensions_cons (line : Bytes) (lines : List Bytes) :
    readExtensions (line :: lines)
      = (readText line >>= fun text => readEntries (Quoted.split ',' text)) >>= fun configs =>
        readExtensions lines >>= fun more => .ok (configs ++ more) := by
  rw [readExtensions]
  rcases readText line with e | text
  · rfl
  · rfl

theorem madeBy_readEntries (entries : List (List Char)) :
    (inTurn (entries.map fun entry => ofFact (∃ config, Config.parse? entry = some config)
      (.unexpectedHeader extensionsHeader))).MadeBy (readEntries entries) := by
  induction entries with
  | nil => exact madeBy_nil []
  | cons entry entries ih =>
    rw [readEntries_cons, List.map_cons]
    refine MadeBy.bind ?_ fun config => ih.map _
    rcases Config.parse? entry with _ | config
    · exact madeBy_error.2 ⟨nofun, fun e => ⟨And.right, fun he => ⟨nofun, he⟩⟩⟩
    · exact madeBy_ok.2 ⟨⟨config, rfl⟩, fun e he => he.1 ⟨config, rfl⟩⟩

theorem madeBy_readExtensions (lines : List Bytes) :
    (inTurn (lines.map extensionsCheck)).MadeBy (readExtensions lines) := by
  induction lines with
  | nil => exact madeBy_nil []
  | cons line lines ih =>
    rw [readExtensions_cons, List.map_cons]
    exact (MadeBy.ofText fun text => madeBy_readEntries _).bind fun configs => ih.map _

/-- The entries that are read are all entries, in their order. -/
theorem readEntries_eq_ok_iff {entries : List (List Char)} {configs : List Config} :
    readEntries entries = .ok configs ↔ entries.map Config.parse? = configs.map some := by
  induction entries generalizing configs with
  | nil =>
    cases configs with
    | nil => exact ⟨fun _ => rfl, fun _ => rfl⟩
    | cons config configs => exact ⟨nofun, nofun⟩
  | cons entry entries ih =>
    rw [readEntries_cons, bind_eq_ok, List.map_cons, eq_comm (b := List.map some configs),
      List.map_eq_cons_iff]
    rcases Config.parse? entry with _ | config
    · exact ⟨nofun, nofun⟩
    · constructor
      · rintro ⟨config', hconfig, h⟩
        cases hconfig
        obtain ⟨more, hmore, h⟩ := bind_eq_ok.1 h
        cases h
        exact ⟨config, more, rfl, rfl, (ih.1 hmore).symm⟩
      · rintro ⟨config', more, rfl, hconfig, hmore⟩
        cases hconfig
        exact ⟨config, rfl, bind_eq_ok.2 ⟨more, ih.2 hmore.symm, rfl⟩⟩

theorem readText_eq_ok_iff {value : Bytes} {text : List Char} :
    readText value = .ok text ↔ value = Utf8.encode text := by
  rw [← Utf8.decode_eq_ok_iff, readText]
  rcases Utf8.decode value with cause | text'
  · exact iff_of_false (fun h => by cases h) (fun h => by cases h)
  · exact ⟨fun h => by cases h; rfl, fun h => by cases h; rfl⟩

/-- The extensions that are read are the entries of all lines, in their order. -/
theorem readExtensions_eq_ok_iff {lines : List Bytes} {configs : List Config} :
    readExtensions lines = .ok configs ↔ ∃ texts : List (List Char), lines = texts.map Utf8.encode
      ∧ (texts.flatMap (Quoted.split ',')).map Config.parse? = configs.map some := by
  induction lines generalizing configs with
  | nil =>
    constructor
    · intro h
      cases h
      exact ⟨[], rfl, rfl⟩
    · rintro ⟨texts, htexts, hconfigs⟩
      obtain rfl := List.map_eq_nil_iff.1 htexts.symm
      obtain rfl := List.map_eq_nil_iff.1 hconfigs.symm
      rfl
  | cons line lines ih =>
    rw [readExtensions_cons, bind_eq_ok]
    constructor
    · -- what was read of the first line, and of the others
      rintro ⟨first, hline, hlines⟩
      obtain ⟨text, htext, hentries⟩ := bind_eq_ok.1 hline
      obtain ⟨more, hmore, hconfigs⟩ := bind_eq_ok.1 hlines
      cases hconfigs
      obtain ⟨texts, rfl, htexts⟩ := ih.1 hmore
      obtain rfl := readText_eq_ok_iff.1 htext
      refine ⟨text :: texts, rfl, ?_⟩
      rw [List.flatMap_cons, List.map_append, List.map_append, readEntries_eq_ok_iff.1 hentries,
        htexts]
    · -- the entries are divided where those of the first line end
      rintro ⟨texts, htexts, hconfigs⟩
      obtain ⟨text, texts, rfl, rfl, rfl⟩ := List.map_eq_cons_iff.1 htexts.symm
      rw [List.flatMap_cons, List.map_append, eq_comm, List.map_eq_append_iff] at hconfigs
      obtain ⟨configs, more, rfl, hentries, hmore⟩ := hconfigs
      refine ⟨configs, bind_eq_ok.2 ⟨text, readText_eq_ok_iff.2 rfl, ?_⟩,
        bind_eq_ok.2 ⟨more, ih.2 ⟨texts, rfl, hmore.symm⟩, rfl⟩⟩
      exact readEntries_eq_ok_iff.2 hentries.symm

/-! ### The subprotocol -/

theorem readProtocol_eq (headers : Http.Headers) (offered : List String) :
    readProtocol headers offered = match (headers.getAll protocolHeader).head? with
      | none => .ok none
      | some line => readText line >>= fun text =>
        if offered.contains (String.ofList (trim text)) then
          .ok (some (String.ofList (trim text)))
        else .error .unsolicitedProtocol := by
  rfl

theorem contains_ofList_iff {names : List String} {text : List Char} :
    names.contains (String.ofList text) ↔ ∃ name ∈ names, name.toList = text := by
  rw [List.contains_iff_mem]
  constructor
  · intro h
    exact ⟨_, h, String.toList_ofList⟩
  · rintro ⟨name, hname, rfl⟩
    rwa [String.ofList_toList]

theorem madeBy_readProtocol (headers : Http.Headers) (offered : List String) :
    (inTurn ((headers.getAll protocolHeader).head?.toList.map (protocolCheck offered))).MadeBy
      (readProtocol headers offered) := by
  rw [readProtocol_eq]
  rcases (headers.getAll protocolHeader).head? with _ | line
  · exact madeBy_nil none
  · refine MadeBy.single (MadeBy.ofText fun text => ?_)
    rw [← contains_ofList_iff]
    exact madeBy_ofFact

/-- The subprotocol that is read is one of those that were offered, or none. -/
theorem exists_of_readProtocol {headers : Http.Headers} {offered : List String}
    {protocol : Option String} (h : readProtocol headers offered = .ok protocol) :
    (headers.getAll protocolHeader = [] ∧ protocol = none)
      ∨ ∃ line lines text, headers.getAll protocolHeader = line :: lines
        ∧ line = Utf8.encode text
        ∧ ∃ name ∈ offered, name.toList = trim text ∧ protocol = some name := by
  rw [readProtocol_eq] at h
  generalize headers.getAll protocolHeader = values at h ⊢
  rcases values with _ | ⟨line, lines⟩
  · cases h
    exact .inl ⟨rfl, rfl⟩
  · obtain ⟨text, htext, hprotocol⟩ := bind_eq_ok.1 h
    split at hprotocol
    next hmem =>
      obtain ⟨name, hname, htrim⟩ := contains_ofList_iff.1 hmem
      cases hprotocol
      refine .inr ⟨line, lines, text, rfl, readText_eq_ok_iff.1 htext, name, hname, htrim, ?_⟩
      rw [← htrim, String.ofList_toList]
    next => cases hprotocol

/-! ### Validation -/

/-- The validation in place: the response is written to when all checks have been made. -/
def validateInPlace (request : Request) : ExceptT Error (StateM Response) Unit := do
  let response ← get
  if response.version ≠ .http11 then throw .unsupportedHttpVersion
  if response.status ≠ 101 then throw (.unexpectedStatus response.status)
  expectHeader response.headers "Upgrade" "websocket"
  expectHeader response.headers "Connection" "upgrade"
  checkAccept response.headers request.key
  let extensions ← readExtensions (response.headers.getAll extensionsHeader)
  let protocol ← readProtocol response.headers request.protocols
  modify fun response => { response with extensions }
  modify fun response => { response with protocol }

/-- What is left of a response that is written to: it is the accepted one or, with an error, as
it was before. -/
def leaving (response : Response) : Except Error Response → Except Error Unit × Response
  | .ok accepted => (.ok (), accepted)
  | .error e => (.error e, response)

section

variable {response : Response} {α : Type}

theorem run_get_bind {f : Response → ExceptT Error (StateM Response) Unit} :
    (get >>= f).run.run response = (f response).run.run response :=
  rfl

theorem run_guard {fact : Prop} [Decidable (¬fact)] {error : Error}
    {f : Unit → ExceptT Error (StateM Response) Unit} {g : Unit → Except Error Response}
    (h : (f ()).run.run response = leaving response (g ())) :
    (if ¬fact then (throw error : ExceptT Error (StateM Response) Unit) >>= f
        else f ()).run.run response
      = leaving response (if ¬fact then (throw error : Except Error Unit) >>= g else g ()) := by
  split
  · rfl
  · exact h

theorem run_lift_bind {x : Except Error α} {f : α → ExceptT Error (StateM Response) Unit}
    {g : α → Except Error Response}
    (h : ∀ a, (f a).run.run response = leaving response (g a)) :
    (liftM x >>= f).run.run response = leaving response (x >>= g) := by
  rcases x with e | a
  · rfl
  · exact h a

end

theorem validateInPlace_run (request : Request) (response : Response) :
    (validateInPlace request).run.run response
      = leaving response (validate request response) := by
  -- Both go through the same computations, and only the last step writes.
  unfold validateInPlace validate
  rw [run_get_bind]
  refine run_guard (run_guard ?_)
  refine run_lift_bind fun _ => run_lift_bind fun _ => run_lift_bind fun _ => ?_
  exact run_lift_bind fun extensions => run_lift_bind fun protocol => rfl

theorem madeBy_validate (request : Request) (response : Response) :
    (inTurn (checks request response)).MadeBy (validate request response) := by
  unfold validate checks
  refine MadeBy.guard (MadeBy.guard ?_)
  refine (madeBy_expectHeader ..).bind fun _ => (madeBy_expectHeader ..).bind fun _ => ?_
  refine (madeBy_checkAccept ..).bind fun _ => (madeBy_readExtensions _).bind fun _ => ?_
  exact (madeBy_readProtocol ..).bind fun _ => madeBy_nil _

/-- What is recorded of a response that is accepted. -/
structure Records (request : Request) (response accepted : Response) : Prop where
  /-- Nothing else is changed. -/
  eq : accepted
    = { response with extensions := accepted.extensions, protocol := accepted.protocol }
  /-- The extensions are the entries of all lines, in their order. -/
  extensions : ∃ texts : List (List Char),
    response.headers.getAll extensionsHeader = texts.map Utf8.encode
      ∧ (texts.flatMap (Quoted.split ',')).map Config.parse? = accepted.extensions.map some
  /-- The subprotocol is the one in the first line, and there is none without a line. -/
  protocol : (response.headers.getAll protocolHeader = [] ∧ accepted.protocol = none)
    ∨ ∃ line lines text, response.headers.getAll protocolHeader = line :: lines
      ∧ line = Utf8.encode text
      ∧ ∃ name ∈ request.protocols, name.toList = trim text ∧ accepted.protocol = some name

theorem records_of_validate {request : Request} {response accepted : Response}
    (h : validate request response = .ok accepted) : Records request response accepted := by
  obtain ⟨-, -, -, -, -, extensions, hextensions, protocol, hprotocol, rfl⟩ :=
    validate_eq_ok_iff.1 h
  exact ⟨rfl, readExtensions_eq_ok_iff.1 hextensions, exists_of_readProtocol hprotocol⟩

/-- The headers of a head that was read are kept field by field. -/
theorem exists_collect_of_decode {head : Bytes} {response : Response}
    (h : HeadReader.decode head = .ok response) :
    ∃ fields, response.headers = .collect fields := by
  unfold HeadReader.decode at h
  rcases hparse : Http.ResponseHead.parse head with cause | ⟨parsed, rest⟩
  · rw [hparse] at h
    cases h
  · rw [hparse] at h
    cases h
    obtain ⟨_, -, _, _, -, _, -, _, _, -, _, _, -, fields, -, -, -, rfl⟩ :=
      Http.ResponseHead.parse_eq_ok_iff.1 hparse
    exact ⟨fields, rfl⟩

/-- **Validation is exact, and it is all or nothing.**  A response is accepted if and only if it
passes all checks, and otherwise the error is that of the first check that fails.  What is
recorded of it are the extensions in all lines and the subprotocol, and in place it is left as
it was where there is an error.

A head that was read has its headers as fields, and the lines under a name are the values of
the fields of this name, in their order. -/
theorem validate_exact (request : Request) (response : Response) :
    ((∃ accepted, validate request response = .ok accepted)
        ↔ ∀ c ∈ checks request response, c.passes)
      ∧ (∀ error, validate request response = .error error ↔
        ∃ front c back, checks request response = front ++ c :: back
          ∧ (∀ d ∈ front, d.passes) ∧ c.failsWith error)
      ∧ (∀ accepted, validate request response = .ok accepted →
        Records request response accepted
          ∧ (validateInPlace request).run.run response = (.ok (), accepted))
      ∧ (∀ error, validate request response = .error error →
        (validateInPlace request).run.run response = (.error error, response))
      ∧ (∀ head, HeadReader.decode head = .ok response →
        ∃ fields, response.headers = .collect fields)
      ∧ ∀ fields, response.headers = .collect fields → ∀ name, response.headers.getAll name
        = (fields.filter fun f => Http.lowerName f.1 = Http.lowerName name).map Prod.snd := by
  have hmade := madeBy_validate request response
  refine ⟨hmade.passes_iff, hmade.failsWith_iff, ?_, ?_, fun head => exists_collect_of_decode, ?_⟩
  · intro accepted haccepted
    refine ⟨records_of_validate haccepted, ?_⟩
    rw [validateInPlace_run, haccepted]
    rfl
  · intro error herror
    rw [validateInPlace_run, herror]
    rfl
  · intro fields hfields name
    rw [hfields, Http.Headers.getAll_collect]

end WebSocket.Handshake
