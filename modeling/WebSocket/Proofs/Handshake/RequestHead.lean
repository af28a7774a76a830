/-
WebSocket/Proofs/Handshake/RequestHead.lean

The lines of a request.

Design.  A request is `Built` by its constructor and any number of calls that set or add
something.  What such a call checks can hold no line end, and that is the URI, the key, and
the names and values of further headers (`Guarded`).  The origin, the subprotocols, and the
names, parameters and values of extensions are taken as they come (`texts`); quotes do not keep
a line end from being one.  So a request falls into its lines exactly if none of these texts
holds a line end (`Request.Built.lines_of_encode`), and then an empty line comes at its end and
nowhere else.  Otherwise an origin can bring a header of its own (`header_from_origin`).
-/
import WebSocket.Handshake.Request
import WebSocket.Proofs.Handshake.Offer
import WebSocket.Proofs.Http.Uri
import WebSocket.Proofs.Text.LineEnds

namespace WebSocket

open Text

/-! ### Base64 -/

namespace Base64

theorem mem_alphabet_of_value? {c : Char} {n : Nat} (h : value? c = some n) : c ∈ alphabet := by
  rw [value?] at h
  exact List.isSome_idxOf?.1 (by rw [h]; rfl)

theorem digit_mem_alphabet (n : Nat) : digit n ∈ alphabet := by
  have hlength : alphabet.length = 64 := by decide +kernel
  have hn : n % 64 < alphabet.length := by omega
  rw [digit, List.getD_eq_getElem?_getD, List.getElem?_eq_getElem hn]
  exact List.getElem_mem hn

theorem le_of_mem_alphabet {c : Char} (h : c ∈ alphabet) : 0x21 ≤ c.toNat := by
  have hall : alphabet.all fun c => 0x21 ≤ c.toNat := by decide +kernel
  exact of_decide_eq_true (List.all_eq_true.1 hall c h)

/-- Neither blanks nor control characters are in what is written. -/
theorem le_of_mem_encode (octets : Bytes) : ∀ c ∈ encode octets, 0x21 ≤ c.toNat := by
  have hdigit (n : Nat) := le_of_mem_alphabet (digit_mem_alphabet n)
  fun_induction encode octets with
  | case1 => exact List.forall_mem_nil _
  | case2 | case3 => simp [hdigit]
  | case4 a b c rest ih => simpa [hdigit] using ih

theorem le_of_value? {c : Char} {n : Nat} (h : value? c = some n) : 0x21 ≤ c.toNat :=
  le_of_mem_alphabet (mem_alphabet_of_value? h)

/-- Neither are they in what is read. -/
theorem le_of_decode? {s : List Char} {octets : Bytes} (h : decode? s = some octets) :
    ∀ c ∈ s, 0x21 ≤ c.toNat := by
  fun_induction decode? s generalizing octets with
  | case1 => exact List.forall_mem_nil _
  | case2 a b =>
    obtain ⟨na, ha, h⟩ := Option.bind_eq_some_iff.1 h
    obtain ⟨nb, hb, -⟩ := Option.bind_eq_some_iff.1 h
    simp [le_of_value? ha, le_of_value? hb]
  | case3 a b c =>
    obtain ⟨na, ha, h⟩ := Option.bind_eq_some_iff.1 h
    obtain ⟨nb, hb, h⟩ := Option.bind_eq_some_iff.1 h
    obtain ⟨nc, hc, -⟩ := Option.bind_eq_some_iff.1 h
    simp [le_of_value? ha, le_of_value? hb, le_of_value? hc]
  | case4 a b c d rest _ _ ih =>
    obtain ⟨na, ha, h⟩ := Option.bind_eq_some_iff.1 h
    obtain ⟨nb, hb, h⟩ := Option.bind_eq_some_iff.1 h
    obtain ⟨nc, hc, h⟩ := Option.bind_eq_some_iff.1 h
    obtain ⟨nd, hd, h⟩ := Option.bind_eq_some_iff.1 h
    obtain ⟨others, ho, -⟩ := Option.bind_eq_some_iff.1 h
    simpa [le_of_value? ha, le_of_value? hb, le_of_value? hc, le_of_value? hd] using ih ho
  | case5 => cases h

end Base64

/-! ### Headers -/

namespace Http

theorem le_toNat_toLower {c : Char} (h : 0x21 ≤ c.toNat) : 0x21 ≤ c.toLower.toNat := by
  rw [Uri.toNat_toLower]
  split <;> omega

theorem le_of_mem_lowerName {name : String} (h : isToken name.toList) :
    ∀ c ∈ (lowerName name).toList, 0x21 ≤ c.toNat := by
  intro c hc
  obtain ⟨d, hd, rfl⟩ := List.mem_map.1 (by simpa [lowerName] using hc)
  have hall : name.toList.all isTokenChar := (Bool.and_eq_true _ _ ▸ h).2
  exact le_toNat_toLower (toNat_of_isTokenChar (List.all_eq_true.1 hall d hd)).1

theorem Headers.flatMap_insertInto_perm (name : String) (value : Bytes)
    (groups : List (String × List Bytes)) :
    ((insertInto name value groups).flatMap fun g => g.2.map fun v => (g.1, v)).Perm
      ((groups.flatMap fun g => g.2.map fun v => (g.1, v)) ++ [(name, value)]) := by
  fun_induction insertInto name value groups with
  | case1 => exact .refl _
  | case2 group groups hname =>
    subst hname
    simp only [List.flatMap_cons, List.map_append, List.map_cons, List.map_nil, List.append_assoc]
    exact (List.perm_append_comm).append_left _
  | case3 group groups _ ih =>
    rw [List.flatMap_cons, List.flatMap_cons, List.append_assoc]
    exact ih.append_left _

/-- Adding a header makes for one header more. -/
theorem Headers.toList_append_perm (hs : Headers) (name : String) (value : Bytes) :
    (hs.append name value).toList.Perm (hs.toList ++ [(lowerName name, value)]) :=
  flatMap_insertInto_perm _ _ _

end Http

/-! ### Extensions -/

namespace Extension

/-- The texts that a configuration is made of. -/
def Config.texts (c : Config) : List String :=
  c.name :: c.params.flatMap fun p => p.name :: p.value.toList

theorem Param.oneLine_render {p : Param} :
    OneLine '\r' '\n' p.render
      ↔ ∀ t ∈ p.name :: p.value.toList, OneLine '\r' '\n' t.toList := by
  unfold render
  rcases p.value with - | v
  · simp
  · have heq : p.name.toList ++ '=' :: Quoted.quoteIfNeeded v.toList
        = p.name.toList ++ (['='] ++ Quoted.quoteIfNeeded v.toList) := rfl
    dsimp only
    rw [heq, oneLine_append_of_head (by simp), oneLine_append_of_not_mem (by decide) (by decide),
      oneLine_quoteIfNeeded]
    simp

/-- A configuration is one line exactly if its texts are. -/
theorem Config.oneLine_render {c : Config} :
    OneLine '\r' '\n' c.render ↔ ∀ t ∈ c.texts, OneLine '\r' '\n' t.toList := by
  have heq : c.render = c.name.toList ++ (c.params.map Param.render).flatMap ([';', ' '] ++ ·) := by
    rw [List.flatMap_map]
    rfl
  rw [heq, oneLine_append_flatMap (by decide) (by decide) (by decide)]
  simp only [texts, List.forall_mem_cons, List.forall_mem_map, Param.oneLine_render,
    List.forall_mem_flatMap]

end Extension

namespace Handshake

open Request

/-! ### Requests that were built -/

/-- The requests that come of the constructor and any number of calls that succeed, and the
headers that were added meanwhile. -/
inductive Request.Built : Request → List (String × String) → Prop
  | new {uri : String} {nonce : Vector UInt8 keyLength} {r : Request}
      (h : Request.new uri nonce = .ok r) : Built r []
  | setKey {r r' : Request} {added : List (String × String)} {key : String} (h : Built r added)
      (hr : r.setKey key = .ok r') : Built r' added
  | setOrigin {r : Request} {added : List (String × String)} (h : Built r added)
      (origin : String) : Built (r.setOrigin origin) added
  | addProtocol {r : Request} {added : List (String × String)} (h : Built r added)
      (name : String) : Built (r.addProtocol name) added
  | addExtension {r : Request} {added : List (String × String)} (h : Built r added)
      (config : Extension.Config) : Built (r.addExtension config) added
  | offerExtension {r : Request} {added : List (String × String)} (h : Built r added)
      {ε : Type} [Extension ε] (e : ε) : Built (r.offerExtension e) added
  | addHeader {r r' : Request} {added : List (String × String)} {name value : String}
      (h : Built r added) (hr : r.addHeader name value = .ok r') :
      Built r' (added ++ [(name, value)])

/-- What is checked when a request is built holds neither blanks nor line ends. -/
structure Request.Guarded (r : Request) : Prop where
  resource : ∀ c ∈ r.resource.toList, 0x21 ≤ c.toNat
  host : ∀ c ∈ r.host.toList, 0x21 ≤ c.toNat
  key : ∀ c ∈ r.key.toList, 0x21 ≤ c.toNat
  names : ∀ h ∈ r.headers.toList, ∀ c ∈ h.1.toList, 0x21 ≤ c.toNat
  values : ∀ h ∈ r.headers.toList, ∀ b ∈ h.2, Http.isValueByte b

/-- The texts of a request that are taken as they come. -/
def Request.texts (r : Request) : List String :=
  r.origin.toList ++ r.protocols ++ r.extensions.flatMap Extension.Config.texts

/-- A request is made exactly if the text is a URI with one of the schemes and a host. -/
theorem new_eq_ok_iff {uri : String} {nonce : Vector UInt8 keyLength} {r : Request} :
    Request.new uri nonce = .ok r ↔ ∃ parsed scheme, Http.Uri.parse uri = .ok parsed
      ∧ parsed.scheme = some scheme ∧ String.ofList scheme ∈ schemes
      ∧ Http.Uri.hostOf parsed.authority ≠ []
      ∧ r = { host := String.ofList parsed.authority
              resource := String.ofList parsed.pathAndQuery
              key := String.ofList (Base64.encode nonce.toList) } := by
  constructor
  · intro h
    unfold Request.new ofUri at h
    split at h
    · cases h
    next parsed hparse =>
    split at h
    · cases h
    next scheme hscheme =>
    split at h
    · cases h
    next hmem =>
    split at h
    · cases h
    next hhost =>
    cases h
    exact ⟨parsed, scheme, hparse, hscheme, by simpa using hmem, by simpa using hhost, rfl⟩
  · rintro ⟨parsed, scheme, hparse, hscheme, hmem, hhost, rfl⟩
    simp [Request.new, ofUri, hparse, hscheme, hmem, hhost]

theorem of_new {uri : String} {nonce : Vector UInt8 keyLength} {r : Request}
    (h : Request.new uri nonce = .ok r) :
    ∃ parsed, Http.Uri.parse uri = .ok parsed
      ∧ r = { host := String.ofList parsed.authority
              resource := String.ofList parsed.pathAndQuery
              key := String.ofList (Base64.encode nonce.toList) } := by
  obtain ⟨parsed, -, hparse, -, -, -, hr⟩ := new_eq_ok_iff.1 h
  exact ⟨parsed, hparse, hr⟩

theorem guarded_of_new {uri : String} {nonce : Vector UInt8 keyLength} {r : Request}
    (h : Request.new uri nonce = .ok r) : r.Guarded := by
  obtain ⟨parsed, hparse, rfl⟩ := of_new h
  obtain ⟨hauthority, hpath, hquery⟩ := Http.Uri.le_of_parse hparse
  refine ⟨?_, by simpa using hauthority, by simpa using Base64.le_of_mem_encode nonce.toList,
    nofun, nofun⟩
  rw [String.toList_ofList]
  unfold Http.Uri.pathAndQuery
  split
  · exact List.forall_mem_singleton.2 (by decide)
  · exact hpath
  · next hq =>
    rw [hq] at hquery
    exact List.forall_mem_append.2 ⟨hpath, List.forall_mem_cons.2 ⟨by decide, hquery _ rfl⟩⟩

theorem of_addHeader {r r' : Request} {name value : String} (h : r.addHeader name value = .ok r') :
    Http.isToken name.toList ∧ (∀ b ∈ Utf8.encode value.toList, Http.isValueByte b)
      ∧ r' = { r with headers := r.headers.append name (Utf8.encode value.toList) } := by
  unfold Request.addHeader at h
  dsimp only at h
  split at h
  · cases h
  next hname =>
  split at h
  · cases h
  next hvalue =>
  cases h
  simp only [Bool.or_eq_true, Bool.not_eq_true', decide_eq_true_eq, not_or] at hname
  simp only [Bool.not_eq_true', Bool.not_eq_false, List.all_eq_true] at hvalue
  exact ⟨by simpa using hname.1, hvalue, rfl⟩

theorem Request.Built.guarded {r : Request} {added : List (String × String)} (h : Built r added) :
    r.Guarded := by
  induction h with
  | new h => exact guarded_of_new h
  | @setKey r r' _ key _ hr ih =>
    unfold Request.setKey at hr
    split at hr
    · next nonce hkey =>
      split at hr
      · cases hr
        exact { ih with key := Base64.le_of_decode? hkey }
      · cases hr
    · cases hr
  | setOrigin _ _ ih => exact ⟨ih.resource, ih.host, ih.key, ih.names, ih.values⟩
  | addProtocol _ _ ih => exact ⟨ih.resource, ih.host, ih.key, ih.names, ih.values⟩
  | addExtension _ _ ih => exact ⟨ih.resource, ih.host, ih.key, ih.names, ih.values⟩
  | offerExtension _ _ ih => exact ⟨ih.resource, ih.host, ih.key, ih.names, ih.values⟩
  | @addHeader r r' _ name value _ hr ih =>
    obtain ⟨hname, hvalue, rfl⟩ := of_addHeader hr
    have hperm := r.headers.toList_append_perm name (Utf8.encode value.toList)
    refine ⟨ih.resource, ih.host, ih.key, fun h hmem => ?_, fun h hmem => ?_⟩
    · rcases List.mem_append.1 (hperm.mem_iff.1 hmem) with hmem | hmem
      · exact ih.names h hmem
      · rw [List.mem_singleton.1 hmem]
        exact Http.le_of_mem_lowerName hname
    · rcases List.mem_append.1 (hperm.mem_iff.1 hmem) with hmem | hmem
      · exact ih.values h hmem
      · rw [List.mem_singleton.1 hmem]
        exact hvalue

/-- Each header that was added is there, and no other, with its name in small letters. -/
theorem Request.Built.headers_perm {r : Request} {added : List (String × String)}
    (h : Built r added) : r.headers.toList.Perm
      (added.map fun h => (Http.lowerName h.1, Utf8.encode h.2.toList)) := by
  induction h with
  | new h =>
    obtain ⟨parsed, -, rfl⟩ := of_new h
    exact .refl _
  | @setKey r r' _ key _ hr ih =>
    unfold Request.setKey at hr
    split at hr
    · split at hr
      · cases hr
        exact ih
      · cases hr
    · cases hr
  | setOrigin _ _ ih => exact ih
  | addProtocol _ _ ih => exact ih
  | addExtension _ _ ih => exact ih
  | offerExtension _ _ ih => exact ih
  | @addHeader r r' _ name value _ hr ih =>
    obtain ⟨-, -, rfl⟩ := of_addHeader hr
    rw [List.map_append]
    exact (r.headers.toList_append_perm name _).trans (ih.append_right _)

/-! ### The lines -/

theorem isLine_headerLine {name : String} {value : List Char} (hr : '\r' ∉ name.toList)
    (hn : '\n' ∉ name.toList) : IsLine (headerLine name value) ↔ OneLine '\r' '\n' value := by
  rw [IsLine, headerLine, Utf8.oneLine_encode]
  apply oneLine_append_of_not_mem
  · simpa using hr
  · simpa using hn

theorem oneLine_of_le {s : List Char} (h : ∀ c ∈ s, 0x21 ≤ c.toNat) : OneLine '\r' '\n' s :=
  oneLine_of_not_mem fun hn => absurd (h _ hn) (by decide)

theorem oneLine_commaSeparated {texts : List (List Char)} :
    OneLine '\r' '\n' (commaSeparated texts) ↔ ∀ t ∈ texts, OneLine '\r' '\n' t := by
  rcases texts with - | ⟨t, texts⟩
  · simp [commaSeparated]
  · rw [commaSeparated_cons, oneLine_append_flatMap (by decide) (by decide) (by decide),
      List.forall_mem_cons]

/-- The line of a header that was added. -/
theorem isLine_of_guarded {r : Request} (hr : r.Guarded) {h : String × Bytes}
    (hh : h ∈ r.headers.toList) : IsLine (headerLine h.1 [] ++ h.2) := by
  have hn : (0x0a : UInt8) ∉ h.2 := fun hmem => absurd (hr.values h hh _ hmem) (by decide)
  have hname : ∀ d, d.toNat < 0x21 → d ∉ h.1.toList := fun d hd hmem =>
    absurd (hr.names h hh d hmem) (Nat.not_le.2 hd)
  rw [IsLine, oneLine_append_of_head fun hhead => hn (List.mem_of_head? hhead)]
  exact ⟨(isLine_headerLine (hname _ (by decide)) (hname _ (by decide))).2 oneLine_nil,
    oneLine_of_not_mem hn⟩

/-- The line of a list, if there is one. -/
theorem isLine_of_list {α : Type} (name : String) (hr : '\r' ∉ name.toList)
    (hn : '\n' ∉ name.toList) {as : List α} {text : α → List Char} :
    (∀ line ∈ if as.isEmpty then [] else [headerLine name (commaSeparated (as.map text))],
        IsLine line)
      ↔ ∀ a ∈ as, OneLine '\r' '\n' (text a) := by
  rcases as with - | ⟨a, as⟩
  · exact ⟨fun _ => List.forall_mem_nil _, fun _ => List.forall_mem_nil _⟩
  · rw [List.isEmpty_cons, if_neg (by decide), List.forall_mem_singleton, isLine_headerLine hr hn,
      oneLine_commaSeparated, List.forall_mem_map]

theorem isLine_requestLine {resource : List Char} (h : ∀ c ∈ resource, 0x21 ≤ c.toNat) :
    IsLine (Utf8.encode ("GET ".toList ++ resource ++ " HTTP/1.1".toList)) := by
  rw [IsLine, Utf8.oneLine_encode, oneLine_append_of_head (by decide),
    oneLine_append_of_not_mem (by decide) (by decide)]
  exact ⟨oneLine_of_le h, oneLine_of_not_mem (by decide)⟩

/-- Each line of a request is one exactly if the texts are that are not checked. -/
theorem isLine_headLines_iff {r : Request} (hr : r.Guarded) :
    (∀ line ∈ r.headLines, IsLine line) ↔ ∀ t ∈ r.texts, OneLine '\r' '\n' t.toList := by
  have hget := isLine_requestLine hr.resource
  have hhost : IsLine (headerLine "Host" r.host.toList) :=
    (isLine_headerLine (by decide) (by decide)).2 (oneLine_of_le hr.host)
  have hupgrade : IsLine (headerLine "Upgrade" "websocket".toList) := by decide +kernel
  have hconnection : IsLine (headerLine "Connection" "Upgrade".toList) := by decide +kernel
  have hkey : IsLine (headerLine "Sec-WebSocket-Key" r.key.toList) :=
    (isLine_headerLine (by decide) (by decide)).2 (oneLine_of_le hr.key)
  have hversion : IsLine (headerLine "Sec-WebSocket-Version" "13".toList) := by decide +kernel
  have horigin : (∀ line ∈ r.origin.toList.map fun origin => headerLine "Origin" origin.toList,
      IsLine line) ↔ ∀ t ∈ r.origin.toList, OneLine '\r' '\n' t.toList := by
    rw [List.forall_mem_map]
    exact forall₂_congr fun _ _ => isLine_headerLine (by decide) (by decide)
  have hheaders : ∀ line ∈ r.headers.toList.map fun h => headerLine h.1 [] ++ h.2, IsLine line :=
    List.forall_mem_map.2 fun h hh => isLine_of_guarded hr hh
  simp only [headLines, texts, List.forall_mem_append, List.forall_mem_cons,
    List.forall_mem_flatMap, horigin,
    isLine_of_list "Sec-WebSocket-Protocol" (by decide) (by decide),
    isLine_of_list "Sec-WebSocket-Extensions" (by decide) (by decide),
    Extension.Config.oneLine_render]
  constructor
  · rintro ⟨⟨⟨⟨⟨-, ho⟩, hp⟩, he⟩, -⟩, -⟩
    exact ⟨⟨ho, hp⟩, he⟩
  · rintro ⟨⟨ho, hp⟩, he⟩
    exact ⟨⟨⟨⟨⟨⟨hget, hhost, hupgrade, hconnection, hkey, List.forall_mem_nil _⟩, ho⟩, hp⟩, he⟩,
      hheaders⟩, hversion, List.forall_mem_nil _⟩

/-! ### The end of the head -/

/-- An empty line comes at the end only, where no other line is empty. -/
theorem eq_nil_of_lines {lines : List Bytes} {octets front back : Bytes}
    (hne : ∀ line ∈ lines, line ≠ []) (hlines : splitLines octets = lines ++ [[], []])
    (h : octets = front ++ (lineEnd ++ lineEnd) ++ back) : back = [] := by
  have hsplit : lines ++ [[], []] = splitLines front ++ [] :: splitLines back := by
    have heq : octets = front ++ 0x0d :: 0x0a :: ([] ++ 0x0d :: 0x0a :: back) := by
      simp [h, lineEnd]
    rw [← hlines, heq, splitLines_append_lineEnd, splitLines_append_lineEnd]
    rfl
  have hback : splitLines back = [[]] := by
    obtain ⟨as, hfront, htail⟩ | ⟨cs, hlines, htail⟩ := List.append_eq_append_iff.1 hsplit
    · -- The empty line is one of the last two, and a line is behind it.
      rcases as with - | ⟨a, - | ⟨b, as⟩⟩
      · exact (List.cons.inj htail).2.symm
      · exact absurd (List.cons.inj (List.cons.inj htail).2).2.symm (splitLines_ne_nil back)
      · simp at htail
    · rcases cs with - | ⟨c, cs⟩
      · exact (List.cons.inj htail).2
      · obtain ⟨rfl, -⟩ := List.cons.inj htail
        exact absurd rfl (hne [] (by rw [hlines]; simp))
  exact eq_of_splitLines_eq_singleton hback

theorem headerLine_ne_nil (name : String) (value : List Char) : headerLine name value ≠ [] := by
  intro h
  have hnil : name.toList ++ [':', ' '] ++ value = [] := Utf8.encode_injective h
  simp at hnil

theorem ne_nil_of_mem_headLines {r : Request} {line : Bytes} (h : line ∈ r.headLines) :
    line ≠ [] := by
  simp only [headLines, List.mem_append, List.mem_cons, List.mem_map, List.not_mem_nil,
    or_false] at h
  rcases h with ((((h | ⟨o, -, rfl⟩) | h) | h) | ⟨f, -, rfl⟩) | rfl
  · rcases h with rfl | rfl | rfl | rfl | rfl
    · intro h
      have hnil : "GET ".toList ++ r.resource.toList ++ " HTTP/1.1".toList = [] :=
        Utf8.encode_injective h
      simp at hnil
    all_goals exact headerLine_ne_nil _ _
  · exact headerLine_ne_nil _ _
  · split at h
    · cases h
    · rw [List.mem_singleton.1 h]
      exact headerLine_ne_nil _ _
  · split at h
    · cases h
    · rw [List.mem_singleton.1 h]
      exact headerLine_ne_nil _ _
  · exact fun h => headerLine_ne_nil _ _ (List.append_eq_nil_iff.1 h).1
  · exact headerLine_ne_nil _ _

theorem splitLines_encode (r : Request) :
    splitLines r.encode = r.headLines.flatMap splitLines ++ [[], []] :=
  splitLines_flatMap r.headLines [0x0d, 0x0a]

/-- **A request falls into its lines unless a text that is not checked holds a line end.**
The lines of what is sent are those of `headLines` and two empty ones exactly if no line end
is in the origin, a subprotocol, or a name or value of an extension.  Then the head ends at its
end and nowhere else.  Of the further headers each that was added has its line, and none
other. -/
theorem Request.Built.lines_of_encode {r : Request} {added : List (String × String)}
    (h : Built r added) :
    (splitLines r.encode = r.headLines ++ [[], []]
      ↔ ∀ t ∈ r.texts, ¬['\r', '\n'] <:+: t.toList)
    ∧ (∃ front, r.encode = front ++ (lineEnd ++ lineEnd))
    ∧ ((∀ t ∈ r.texts, ¬['\r', '\n'] <:+: t.toList) →
        ∀ front back, r.encode = front ++ (lineEnd ++ lineEnd) ++ back → back = [])
    ∧ r.headers.toList.Perm
        (added.map fun h => (Http.lowerName h.1, Utf8.encode h.2.toList)) := by
  have hlines : splitLines r.encode = r.headLines ++ [[], []]
      ↔ ∀ t ∈ r.texts, ¬['\r', '\n'] <:+: t.toList := by
    rw [splitLines_encode, List.append_left_inj, flatMap_splitLines_eq_iff]
    exact isLine_headLines_iff h.guarded
  refine ⟨hlines, ?_, fun htexts front back heq => ?_, h.headers_perm⟩
  · -- The last line ends as all others do.
    obtain ⟨lines, last, hlast⟩ : ∃ lines last, r.headLines = lines ++ [last] := ⟨_, _, rfl⟩
    exact ⟨lines.flatMap (· ++ lineEnd) ++ last, by simp [encode, hlast]⟩
  · exact eq_nil_of_lines (fun _ => ne_nil_of_mem_headLines) (hlines.2 htexts) heq

/-- The general statement for a request with one of everything, where the value of a parameter
holds a line feed and a carriage return, in this order. -/
theorem lines_of_encode_of_parameter :
    let r : Request :=
      { host := "example.com", resource := "/", key := "AAAAAAAAAAAAAAAAAAAAAA==",
        origin := some "http://a.example", protocols := ["chat"],
        extensions := [{ name := "x", params := [{ name := "y", value := some "\n\"\r" }] }],
        headers := Http.Headers.append {} "Via" [98] }
    Built r [("Via", "b")] ∧ (∀ t ∈ r.texts, ¬['\r', '\n'] <:+: t.toList)
      ∧ splitLines r.encode = r.headLines ++ [[], []] ∧ r.headLines.length = 10 := by
  intro r
  have hnew : Request.new "ws://example.com" (.replicate 16 0)
      = .ok { host := "example.com", resource := "/", key := "AAAAAAAAAAAAAAAAAAAAAA==" } := rfl
  have hr : Built r [("Via", "b")] :=
    .addHeader (((Built.new hnew).setOrigin "http://a.example").addProtocol "chat" |>.addExtension
      { name := "x", params := [{ name := "y", value := some "\n\"\r" }] }) rfl
  have htexts : ∀ t ∈ r.texts, ¬['\r', '\n'] <:+: t.toList := by decide +kernel
  exact ⟨hr, htexts, hr.lines_of_encode.1.2 htexts, by decide +kernel⟩

/-- **A header that nobody added.**  An origin with a line end in it makes for one line more,
which is a header of its own. -/
theorem header_from_origin :
    let r : Request :=
      { host := "example.com", resource := "/", key := "AAAAAAAAAAAAAAAAAAAAAA==",
        origin := some "a\r\nEvil: b" }
    Built r [] ∧ splitLines r.encode ≠ r.headLines ++ [[], []]
      ∧ Bytes.ofLatin "Evil: b" ∈ splitLines r.encode
      ∧ r.addHeader "Origin" "a\r\nEvil: b" = .error (.headerValue "a\r\nEvil: b") := by
  intro r
  have hnew : Request.new "ws://example.com" (.replicate 16 0)
      = .ok { host := "example.com", resource := "/", key := "AAAAAAAAAAAAAAAAAAAAAA==" } := rfl
  have hr : Built r [] := (Built.new hnew).setOrigin "a\r\nEvil: b"
  exact ⟨hr, by decide +kernel, by decide +kernel, by decide +kernel⟩

end Handshake

end WebSocket
