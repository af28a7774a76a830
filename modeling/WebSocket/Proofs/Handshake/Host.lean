/-
WebSocket/Proofs/Handshake/Host.lean

The host of a request.

What is kept is the whole authority, and there is a host in it.  So the host of a request is the
host of the text and its port exactly if the authority holds no user information; otherwise the
user information is in front of them, up to an at-sign, also in what is sent
(`host_with_user`).
-/
import WebSocket.Proofs.Handshake.RequestHead
import WebSocket.Proofs.Http.Authority

namespace WebSocket.Handshake

open Request
open Text (splitLines splitLines_of_isLine)
open Http.Uri (Split Authority upTo behind)

/-- The second line of a request names its host. -/
theorem getElem?_one_splitLines_encode {r : Request}
    (hresource : ∀ c ∈ r.resource.toList, 0x21 ≤ c.toNat)
    (hhost : ∀ c ∈ r.host.toList, 0x21 ≤ c.toNat) :
    (splitLines r.encode)[1]? = some (headerLine "Host" r.host.toList) := by
  have hline : Text.IsLine (headerLine "Host" r.host.toList) :=
    (isLine_headerLine (by decide) (by decide)).2 (oneLine_of_le hhost)
  rw [splitLines_encode]
  unfold headLines
  simp only [List.cons_append, List.flatMap_cons,
    splitLines_of_isLine (isLine_requestLine hresource), splitLines_of_isLine hline]
  rfl

/-- **The host of a request.**  The parts of the text, and of its authority, are the only ones
into which their delimiters divide them.

* The host of the request is the whole authority: the user information with its at-sign, if
  there is one, the host, and the port if there is one.  There is always a host.
* So it is the host with the port exactly if there is no user information, and there is an
  at-sign in it exactly if there is.
* It is what the line of the host says in what is sent. -/
theorem host_of_new {uri : String} {nonce : Vector UInt8 keyLength} {r : Request}
    (h : Request.new uri nonce = .ok r) :
    (∃ (s : Split uri.toList) (a : Authority s.authority),
      r.host.toList = upTo '@' a.user ++ (a.host ++ behind ':' a.port)
      ∧ a.host ≠ []
      ∧ (r.host.toList = a.host ++ behind ':' a.port ↔ a.user = none)
      ∧ ('@' ∈ r.host.toList ↔ a.user.isSome))
    ∧ ∀ r' : Request, r'.host = r.host → r'.resource = r.resource →
      (splitLines r'.encode)[1]? = some (headerLine "Host" r.host.toList) := by
  refine ⟨?_, fun r' hhost hresource => ?_⟩
  · obtain ⟨u, scheme, hparse, hscheme, -, hne, rfl⟩ := new_eq_ok_iff.1 h
    obtain ⟨s, -, hauthority, -, -⟩ := Http.Uri.exists_split_of_parse hparse hscheme
    obtain ⟨a⟩ := Http.Uri.nonempty_authority_of_parse hparse hscheme
    rw [← hauthority] at a hne
    have hhost : (String.ofList u.authority).toList
        = upTo '@' a.user ++ (a.host ++ behind ':' a.port) := by
      rw [String.toList_ofList, ← hauthority, ← a.eq_append]
    refine ⟨s, a, hhost, a.host_ne_nil hne, ?_, ?_⟩
    · rw [hhost, List.append_left_eq_self, Http.Uri.upTo_eq_nil_iff]
    · rw [hhost, List.mem_append, or_iff_left a.at_not_mem, Http.Uri.delim_mem_upTo_iff]
  · have hr := guarded_of_new h
    rw [getElem?_one_splitLines_encode (hresource ▸ hr.resource) (hhost ▸ hr.host), hhost]

/-- Two at-signs in front of an address in brackets, colons on both sides, and a port. -/
theorem host_of_new_of_all_parts :
    let uri := "wss://a:b@c@[::1]:80/d"
    let r : Request :=
      { host := "a:b@c@[::1]:80", resource := "/d", key := "AAAAAAAAAAAAAAAAAAAAAA==" }
    Request.new uri (.replicate 16 0) = .ok r
      ∧ (splitLines r.encode)[1]? = some (Bytes.ofLatin "Host: a:b@c@[::1]:80") := by
  intro uri r
  have hnew : Request.new uri (.replicate 16 0) = .ok r := by decide +kernel
  obtain ⟨-, hline⟩ := host_of_new hnew
  refine ⟨hnew, (hline r rfl rfl).trans ?_⟩
  decide +kernel

/-- **User information in what is sent.**  Name and password of the text are part of the host,
and the line of the host names them. -/
theorem host_with_user :
    let uri := "ws://user:pw@example.com:80/chat"
    let r : Request :=
      { host := "user:pw@example.com:80", resource := "/chat"
        key := "AAAAAAAAAAAAAAAAAAAAAA==" }
    Request.new uri (.replicate 16 0) = .ok r
      ∧ (∀ (s : Split uri.toList) (a : Authority s.authority),
          a.user = some "user:pw".toList ∧ a.host = "example.com".toList
            ∧ a.port = some "80".toList)
      ∧ (splitLines r.encode)[1]? = some (Bytes.ofLatin "Host: user:pw@example.com:80") := by
  intro uri r
  have hends : "user:pw@example.com:80".toList.all (!Http.Uri.endsAuthority ·) := by decide +kernel
  have hauthority : "user:pw@example.com:80".toList
      = upTo '@' (some "user:pw".toList)
        ++ ("example.com".toList ++ behind ':' (some "80".toList)) := by decide +kernel
  let parts : Split uri.toList :=
    { scheme := "ws".toList, authority := "user:pw@example.com:80".toList, path := "/chat".toList
      query := none, fragment := none
      eq_append := by decide +kernel, colon_not_mem_scheme := by decide
      not_endsAuthority := fun c hc => by simpa using List.all_eq_true.1 hends c hc
      path_eq := .inr (by decide +kernel), not_mem_path := by decide, not_mem_query := nofun }
  let within : Authority parts.authority :=
    { user := some "user:pw".toList, host := "example.com".toList, port := some "80".toList
      eq_append := hauthority, at_not_mem := by decide +kernel
      colon_host := fun a b h => by
        have hcolon : ':' ∉ "example.com".toList := by decide +kernel
        exact absurd (h ▸ List.mem_append_right a List.mem_cons_self) hcolon
      not_mem_port := by decide }
  refine ⟨by decide +kernel, fun s a => ?_, by decide +kernel⟩
  obtain rfl := Subsingleton.elim s parts
  rw [Subsingleton.elim a within]
  exact ⟨rfl, rfl, rfl⟩

end WebSocket.Handshake
