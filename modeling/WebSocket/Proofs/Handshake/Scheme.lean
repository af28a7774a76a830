/-
WebSocket/Proofs/Handshake/Scheme.lean

The scheme of the text that a request is made for.

`http` and `https` are accepted in any case, since they are put in small letters where the text
is read.  `ws` and `wss` are compared as they are written, and so they are accepted in small
letters only (`refused_in_capitals`).
-/
import WebSocket.Proofs.Handshake.RequestHead
import WebSocket.Proofs.Http.Scheme

namespace WebSocket.Handshake

open Request
open Http.Uri (readAs)

theorem ofList_mem_schemes_iff {scheme : List Char} :
    String.ofList scheme ∈ schemes ↔ scheme ∈ schemes.map String.toList := by
  constructor
  · exact fun h => List.mem_map.2 ⟨_, h, String.toList_ofList⟩
  · intro h
    obtain ⟨name, hname, rfl⟩ := List.mem_map.1 h
    rwa [String.ofList_toList]

/-- The schemes that are accepted, as they are written. -/
theorem readAs_mem_schemes_iff {front : List Char} :
    String.ofList (readAs front) ∈ schemes ↔ front ∈ ["ws".toList, "wss".toList]
      ∨ front.map Char.toLower ∈ ["http".toList, "https".toList] := by
  rw [ofList_mem_schemes_iff, readAs]
  split
  · next hcase =>
    have hmem : front.map Char.toLower ∈ schemes.map String.toList :=
      List.mem_append_right ["ws".toList, "wss".toList] hcase
    exact iff_of_true hmem (.inr hcase)
  · next hcase =>
    -- In small letters `http` and `https` are of the other kind.
    have hsmall : front ∉ ["http".toList, "https".toList] := by
      intro hmem
      refine hcase ?_
      rcases List.mem_pair.1 hmem with rfl | rfl <;> decide
    show front ∈ ["ws".toList, "wss".toList] ++ ["http".toList, "https".toList] ↔ _
    rw [List.mem_append, or_iff_left hsmall, or_iff_left hcase]

theorem new_eq_unsupportedScheme {uri : String} {nonce : Vector UInt8 keyLength} {u : Http.Uri}
    {scheme : List Char} (hparse : Http.Uri.parse uri = .ok u) (hscheme : u.scheme = some scheme)
    (hnot : String.ofList scheme ∉ schemes) :
    Request.new uri nonce = .error (.unsupportedScheme (String.ofList scheme)) := by
  simp [Request.new, ofUri, hparse, hscheme, hnot]

/-- **The case of the scheme of a request.**  A request is made for one text, and another one
differs from it only in the case of the letters in front of the first colon with two slashes.
Then the same request is made for the other one if its scheme is `ws` or `wss` in small letters,
or `http` or `https` in any case.  Otherwise it is refused, for its scheme.

As the two texts can change places, a scheme that is accepted in small letters is refused in
another case only if it is `ws` or `wss`. -/
theorem new_of_scheme_case {front front' rest : List Char} {nonce : Vector UInt8 keyLength}
    {r : Request} (hcase : front.map Char.toLower = front'.map Char.toLower)
    (hfirst : ¬[':', '/', '/'] <:+: front ++ [':', '/'])
    (h : Request.new (String.ofList (front ++ ':' :: '/' :: '/' :: rest)) nonce = .ok r) :
    Request.new (String.ofList (front' ++ ':' :: '/' :: '/' :: rest)) nonce
      = if front' ∈ ["ws".toList, "wss".toList]
            ∨ front'.map Char.toLower ∈ ["http".toList, "https".toList]
        then .ok r else .error (.unsupportedScheme (String.ofList front')) := by
  obtain ⟨u, scheme, hparse, hscheme, -, hhost, hr⟩ := new_eq_ok_iff.1 h
  obtain ⟨-, hparse'⟩ := Http.Uri.parse_of_scheme_case hcase hfirst hparse hscheme
  split
  · next hread =>
    exact new_eq_ok_iff.2
      ⟨_, readAs front', hparse', rfl, readAs_mem_schemes_iff.2 hread, hhost, hr⟩
  · next hread =>
    have hnot := mt readAs_mem_schemes_iff.1 hread
    rw [new_eq_unsupportedScheme hparse' rfl hnot, readAs, if_neg fun h => hread (.inr h)]

/-- A colon with two slashes comes again in the path. -/
theorem new_of_scheme_case_of_https :
    let r : Request :=
      { host := "example.com", resource := "/a://b", key := "AAAAAAAAAAAAAAAAAAAAAA==" }
    Request.new "https://example.com/a://b" (.replicate 16 0) = .ok r
      ∧ Request.new "hTTpS://example.com/a://b" (.replicate 16 0) = .ok r := by
  intro r
  have hnew : Request.new
      (String.ofList ("https".toList ++ ':' :: '/' :: '/' :: "example.com/a://b".toList))
      (.replicate 16 0) = .ok r := by decide +kernel
  have hcase : "https".toList.map Char.toLower = "hTTpS".toList.map Char.toLower := by
    decide +kernel
  have hsame := new_of_scheme_case hcase (by decide +kernel) hnew
  exact ⟨hnew, hsame.trans (if_pos (by decide +kernel))⟩

/-- **A scheme in capital letters.**  `ws` is refused in capital letters, where `http` is not. -/
theorem refused_in_capitals :
    let r : Request :=
      { host := "example.com", resource := "/chat", key := "AAAAAAAAAAAAAAAAAAAAAA==" }
    Request.new "ws://example.com/chat" (.replicate 16 0) = .ok r
      ∧ Request.new "WS://example.com/chat" (.replicate 16 0) = .error (.unsupportedScheme "WS")
      ∧ Request.new "http://example.com/chat" (.replicate 16 0) = .ok r
      ∧ Request.new "HTTP://example.com/chat" (.replicate 16 0) = .ok r := by
  decide +kernel

end WebSocket.Handshake
