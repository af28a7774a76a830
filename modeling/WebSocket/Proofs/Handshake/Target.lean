/-
WebSocket/Proofs/Handshake/Target.lean

The target that a request asks for.

It is made of the path and the query of the text that the request was made for.  A path that is
empty stands for a slash, but only where no query follows: behind an empty path the query is
asked for by itself (`resource_without_slash`).
-/
import WebSocket.Proofs.Handshake.RequestHead

namespace WebSocket

open Text

/-- The target that a text stands for: its path, a slash if that is empty, and its query. -/
def Http.Uri.Split.target {text : List Char} (s : Split text) : List Char :=
  (if s.path = [] then ['/'] else s.path) ++ behind '?' s.query

theorem Http.Uri.Split.head?_target {text : List Char} (s : Split text) :
    s.target.head? = some '/' := by
  unfold target
  rcases s.path_eq with h | h
  · rw [if_pos h]
    rfl
  · obtain ⟨path, hpath⟩ := List.head?_eq_some_iff.1 h
    rw [hpath]
    rfl

/-- Neither blanks nor number signs are in the target, and of the control characters of ASCII at
most DEL. -/
theorem Http.Uri.Split.chars_of_target {text : List Char} {s : Split text}
    (hpath : ∀ c ∈ s.path, isPathChar c) (hquery : ∀ q ∈ s.query, ∀ c ∈ q, isQueryChar c) :
    ∀ c ∈ s.target, 0x20 < c.toNat ∧ c ≠ '#' := by
  intro c hc
  rcases List.mem_append.1 hc with hc | hc
  · split at hc
    · rw [List.mem_singleton.1 hc]
      decide
    · exact ⟨le_of_isPathChar (hpath c hc), fun h => s.not_mem_path.2 (h ▸ hc)⟩
  · rcases hq : s.query with - | q <;> rw [hq] at hc
    · cases hc
    · rcases List.mem_cons.1 hc with rfl | hc
      · decide
      · have hchar : isQueryChar c := hquery q hq c hc
        exact ⟨le_of_isQueryChar hchar, fun h => s.not_mem_query q hq (h ▸ hc)⟩

namespace Handshake

open Http.Uri (Split behind)

/-- What is asked for is the target, without its slash if the path is empty and a query
follows. -/
theorem pathAndQuery_eq {text : List Char} {s : Split text} {u : Http.Uri} (hpath : s.path = u.path)
    (hquery : s.query = u.query) :
    u.pathAndQuery = if s.path = [] ∧ s.query.isSome then s.target.tail else s.target := by
  unfold Http.Uri.pathAndQuery Split.target
  rw [hpath, hquery]
  split
  · next hp hq => simp [hp, hq, behind]
  · next hq hp =>
    have hne : u.path ≠ [] := hp
    simp [hq, hne, behind]
  · next q hq => by_cases hp : u.path = [] <;> simp [hp, hq, behind]

theorem head?_requestLine {r : Request} (h : ∀ c ∈ r.resource.toList, 0x21 ≤ c.toNat) :
    (splitLines r.encode).head?
      = some (Utf8.encode ("GET ".toList ++ r.resource.toList ++ " HTTP/1.1".toList)) := by
  rw [splitLines_encode]
  unfold Request.headLines
  simp only [List.cons_append, List.flatMap_cons, splitLines_of_isLine (isLine_requestLine h)]
  rfl

/-- **What a request asks for.**  The parts of the text are the only ones into which its
delimiters divide it.

* The resource is the target of the text, except that an empty path with a query behind it is
  left out instead of being written as a slash.  It begins with a slash in all other cases.
* There is no blank and no number sign in it.  Of the control characters of ASCII only DEL can be
  in it, which the reader of URIs lets through.
* So the first line of what is sent is made of three words, and the resource is the second of
  them. -/
theorem resource_of_new {uri : String} {nonce : Vector UInt8 Request.keyLength} {r : Request}
    (h : Request.new uri nonce = .ok r) :
    (∃ s : Split uri.toList,
      r.resource.toList = (if s.path = [] ∧ s.query.isSome then s.target.tail else s.target)
      ∧ (r.resource.toList.head? = some '/' ↔ ¬(s.path = [] ∧ s.query.isSome)))
    ∧ (∀ c ∈ r.resource.toList, 0x20 < c.toNat ∧ c ≠ '#')
    ∧ ∀ r' : Request, r'.resource = r.resource → (splitLines r'.encode).head?
      = some (Utf8.encode ("GET ".toList ++ r.resource.toList ++ " HTTP/1.1".toList)) := by
  obtain ⟨u, scheme, hparse, hscheme, -, -, hr⟩ := new_eq_ok_iff.1 h
  obtain ⟨s, -, -, hpath, hquery⟩ := Http.Uri.exists_split_of_parse hparse hscheme
  obtain ⟨-, hpathChars, hqueryChars⟩ := Http.Uri.chars_of_parse hparse
  have hresource : r.resource.toList
      = if s.path = [] ∧ s.query.isSome then s.target.tail else s.target := by
    rw [hr, String.toList_ofList, pathAndQuery_eq hpath hquery]
  have hchars : ∀ c ∈ r.resource.toList, 0x20 < c.toNat ∧ c ≠ '#' := by
    have htarget := Split.chars_of_target (hpath ▸ hpathChars) (hquery ▸ hqueryChars)
    rw [hresource]
    split
    · exact fun c hc => htarget c (List.mem_of_mem_tail hc)
    · exact htarget
  refine ⟨⟨s, hresource, ?_⟩, hchars, fun r' hr' => ?_⟩
  · rw [hresource]
    by_cases hempty : s.path = [] ∧ s.query.isSome
    · -- The slash is what is left out, so the question mark comes first.
      obtain ⟨q, hq⟩ := Option.isSome_iff_exists.1 hempty.2
      simp [hempty, Split.target, hq, behind]
    · rw [if_neg hempty]
      exact iff_of_true s.head?_target hempty
  · have hle : ∀ c ∈ r'.resource.toList, 0x21 ≤ c.toNat := fun c hc => (hchars c (hr' ▸ hc)).1
    rw [head?_requestLine hle, hr']

/-- A path and a query, between a port and a fragment. -/
theorem resource_of_new_of_all_parts :
    let uri := "HTTPS://user@example.com:80/a/b?c=/d?#e?f"
    let r : Request :=
      { host := "user@example.com:80", resource := "/a/b?c=/d?", key := "AAAAAAAAAAAAAAAAAAAAAA==" }
    Request.new uri (.replicate 16 0) = .ok r
      ∧ (splitLines r.encode).head? = some (Bytes.ofLatin "GET /a/b?c=/d? HTTP/1.1") := by
  intro uri r
  have hnew : Request.new uri (.replicate 16 0) = .ok r := by decide +kernel
  obtain ⟨-, -, hline⟩ := resource_of_new hnew
  refine ⟨hnew, (hline r rfl).trans ?_⟩
  decide +kernel

/-- **An empty path with a query behind it.**  The path stands for a slash, but the query is asked
for by itself. -/
theorem resource_without_slash :
    let uri := "ws://example.com?q"
    let r : Request :=
      { host := "example.com", resource := "?q", key := "AAAAAAAAAAAAAAAAAAAAAA==" }
    Request.new uri (.replicate 16 0) = .ok r
      ∧ (∀ s : Split uri.toList, s.target = "/?q".toList)
      ∧ (splitLines r.encode).head? = some (Bytes.ofLatin "GET ?q HTTP/1.1") := by
  intro uri r
  have hends : "example.com".toList.all (!Http.Uri.endsAuthority ·) := by decide +kernel
  let parts : Split uri.toList :=
    { scheme := "ws".toList, authority := "example.com".toList, path := []
      query := some ['q'], fragment := none
      eq_append := by decide +kernel, colon_not_mem_scheme := by decide
      not_endsAuthority := fun c hc => by simpa using List.all_eq_true.1 hends c hc
      path_eq := .inl rfl, not_mem_path := by decide, not_mem_query := by decide }
  refine ⟨by decide +kernel, fun s => ?_, by decide +kernel⟩
  rw [Subsingleton.elim s parts]
  show ['/'] ++ ['?', 'q'] = "/?q".toList
  decide +kernel

end Handshake
end WebSocket
