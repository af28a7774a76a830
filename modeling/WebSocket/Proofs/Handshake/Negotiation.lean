/-
WebSocket/Proofs/Handshake/Negotiation.lean

The extensions of a channel behind a handshake.

A response is accepted with the extensions that its header lines name
(`validate_eq_ok_iff`), and the channel gets those of them that are registered, in this
order.  That no reserved bit is claimed twice is nobody's concern on this way, but where the
registered extensions claim different bits, a bit can only be claimed twice if a name is
there twice (`bits_apart_of_names`), which is not refused (`bit_claimed_twice`).
-/
import WebSocket.Handshake.Upgrade
import WebSocket.Proofs.Extension.BitsApart
import WebSocket.Proofs.Parts

namespace WebSocket.Handshake

open Extension

/-! ### Responses that are accepted -/

/-- A response is accepted if it passes all checks, and it is given what was read from it. -/
theorem validate_eq_ok_iff {request : Request} {response accepted : Response} :
    validate request response = .ok accepted ↔ response.version = .http11 ∧ response.status = 101
      ∧ expectHeader response.headers "Upgrade" "websocket" = .ok ()
      ∧ expectHeader response.headers "Connection" "upgrade" = .ok ()
      ∧ checkAccept response.headers request.key = .ok ()
      ∧ ∃ extensions, readExtensions (response.headers.getAll extensionsHeader) = .ok extensions
        ∧ ∃ protocol, readProtocol response.headers request.protocols = .ok protocol
          ∧ { response with extensions, protocol } = accepted := by
  by_cases hv : response.version = .http11
  · by_cases hs : response.status = 101
    · simp [validate, hv, hs, bind_eq_ok, Unique.exists_iff, pure, Except.pure]
    · simp [validate, hv, hs, throw, throwThe, MonadExceptOf.throw, bind, Except.bind]
  · simp [validate, hv, throw, throwThe, MonadExceptOf.throw, bind, Except.bind]

/-- The extensions that are agreed upon are those in the header lines. -/
theorem readExtensions_of_validate {request : Request} {response accepted : Response}
    (h : validate request response = .ok accepted) :
    readExtensions (response.headers.getAll extensionsHeader) = .ok accepted.extensions := by
  obtain ⟨-, -, -, -, -, extensions, hread, protocol, -, rfl⟩ := validate_eq_ok_iff.1 h
  exact hread

/-- The response of a server that accepts a request with this key and agrees to the
extensions in these header lines. -/
def Response.accepting (key : String) (lines : List Bytes) : Response where
  version := .http11
  status := 101
  reason := ""
  headers := { groups := [
    ("upgrade", [Bytes.ofLatin "websocket"]),
    ("connection", [Bytes.ofLatin "upgrade"]),
    ("sec-websocket-accept",
      [Text.Utf8.encode (acceptKey (Text.Utf8.encode key.toList)).toList]),
    ("sec-websocket-extensions", lines)] }

theorem validate_accepting (request : Request) {lines : List Bytes} {configs : List Config}
    (h : readExtensions lines = .ok configs) :
    validate request (.accepting request.key lines)
      = .ok { Response.accepting request.key lines with extensions := configs } := by
  rw [validate_eq_ok_iff]
  have hlines : (Response.accepting request.key lines).headers.getAll extensionsHeader = lines := by
    rfl
  have haccept : (Response.accepting request.key lines).headers.get? acceptHeader
      = some (Text.Utf8.encode (acceptKey (Text.Utf8.encode request.key.toList)).toList) := by
    rfl
  have hprotocol : (Response.accepting request.key lines).headers.get? protocolHeader = none := by
    rfl
  refine ⟨rfl, rfl, rfl, rfl, ?_, configs, ?_, none, ?_, rfl⟩
  · simp [checkAccept, haccept]
  · rw [hlines, h]
  · simp [readProtocol, hprotocol]

/-! ### The extensions of the channel -/

/-- **No reserved bit is claimed twice where no name is there twice.**  The registered
extensions claim different bits if they have different names, and a response is accepted.

When this response has been read, the channel gets what is made of the extensions in its header
lines.  Of these, only extensions of the same name can claim the same bit, so if the names are
different, every bit is claimed once at most.  And where this is so and the peer has made
extensions of the same list, every frame that comes through them without any of these bits is
restored, with any such frames before it. -/
theorem Upgrade.bits_apart_of_names {σ ε : Type} [Extension ε] [Session σ] (u : Upgrade σ ε)
    (hregistry : u.registry.BitsApart) {response accepted : Response}
    (haccepted : validate u.request response = .ok accepted) :
    let es := u.registry.instantiate accepted.extensions
    readExtensions (response.headers.getAll extensionsHeader) = .ok accepted.extensions
      ∧ (∀ (host : Host ε) (session : σ) (reading : Reading ε) (leftover : Bytes),
        reading.result = .ok (some (response, leftover)) →
          (u.conclude host session reading).host.link.chain = some ⟨es⟩)
      ∧ accepted.extensions.Pairwise (fun c d => ¬Registry.sameName c.name d.name →
        ∀ a ∈ u.registry.instance? c, ∀ b ∈ u.registry.instance? d,
          (reservedBits a).Apart (reservedBits b))
      ∧ (accepted.extensions.Pairwise (fun c d => ¬Registry.sameName c.name d.name) →
        (es.map reservedBits).Pairwise ReservedBits.Apart)
      ∧ ((es.map reservedBits).Pairwise ReservedBits.Apart →
        ∀ (R : ε → ε → Prop) (peer : List ε) (frames : List Frame), Faithful R →
          List.Forall₂ R peer es → (∀ f ∈ frames, ∀ e ∈ es, f.rsv.Apart (reservedBits e)) →
          ∀ s rs, Pipeline.Ends.run ⟨⟨peer⟩, ⟨es⟩⟩ (frames.map fun f => (.there, f)) = .ok (s, rs) →
            rs = frames.map .ok) := by
  intro es
  refine ⟨readExtensions_of_validate haccepted, ?_, ?_, hregistry.pairwise_instantiate, ?_⟩
  · intro host session reading leftover hreading
    simp only [conclude, hreading, haccepted]
    rfl
  · exact List.pairwise_of_forall fun c d hcd a ha b hb => hregistry.apart hcd ha hb
  · intro hapart R peer frames hR hpeer hclear s rs hrun
    refine hR.restored hpeer (fun f hf => ⟨fun claim hclaim => ?_, hapart⟩) hrun
    obtain ⟨e, he, rfl⟩ := List.mem_map.1 hclaim
    exact hclear f hf e he

/-- Two markers of different names are agreed upon, and frames of a peer with the same markers
are restored. -/
theorem bits_apart_of_two_markers :
    let first : Marker := { label := "a", bits := { rsv1 := true }, setsBits := true }
    let second : Marker := { label := "b", bits := { rsv2 := true }, setsBits := true }
    let registry := (Registry.register {} "a" first).register "b" second
    let request : Request := { host := "a.b", resource := "/", key := "AAAAAAAAAAAAAAAAAAAAAA==" }
    let response : Response := .accepting request.key [Bytes.ofLatin "b, a"]
    let frames : List Frame := [.single .text [104, 105], .single .ping []]
    registry.BitsApart ∧ ∃ accepted, validate request response = .ok accepted
      ∧ let es := registry.instantiate accepted.extensions
        es = [second, first]
        ∧ (es.map reservedBits).Pairwise ReservedBits.Apart
        ∧ ∃ s rs, Pipeline.Ends.run ⟨⟨es⟩, ⟨es⟩⟩ (frames.map fun f => (.there, f)) = .ok (s, rs)
          ∧ rs = frames.map .ok := by
  intro first second registry request response frames
  have hentries : registry.entries = [("a", first), ("b", second)] := by decide +kernel
  have hregistry : registry.BitsApart := by
    intro x hx y hy hxy ps qs
    rw [hentries] at hx hy
    simp only [List.mem_cons, List.not_mem_nil, or_false] at hx hy
    rw [Marker.reservedBits_configure, Marker.reservedBits_configure]
    rcases hx with rfl | rfl <;> rcases hy with rfl | rfl
    · exact absurd (Registry.sameName_iff.2 rfl) hxy
    · decide
    · decide
    · exact absurd (Registry.sameName_iff.2 rfl) hxy
  have hread : readExtensions [Bytes.ofLatin "b, a"] = .ok [{ name := "b" }, { name := "a" }] := by
    decide +kernel
  have haccepted := validate_accepting request hread
  have hes : registry.instantiate [{ name := "b" }, { name := "a" }] = [second, first] := by
    decide +kernel
  let upgrade : Upgrade Script Marker := { request, registry, state := .done }
  obtain ⟨-, -, -, hnames, hrestored⟩ := upgrade.bits_apart_of_names hregistry haccepted
  have hapart := hnames (by decide +kernel)
  refine ⟨hregistry, _, haccepted, hes, hapart, ?_⟩
  rcases hrun : Pipeline.Ends.run ⟨⟨[second, first]⟩, ⟨[second, first]⟩⟩
    (frames.map fun f => (.there, f)) with e | ⟨s, rs⟩
  · have hok : (Pipeline.Ends.run ⟨⟨[second, first]⟩, ⟨[second, first]⟩⟩
        (frames.map fun f => (.there, f))).isOk := by decide +kernel
    rw [hrun] at hok
    cases hok
  · have hmatch : List.Forall₂ Marker.Matches [second, first] [second, first] :=
      .cons (.refl rfl rfl) (.cons (.refl rfl rfl) .nil)
    rw [← hes] at hrun hmatch
    refine ⟨s, rs, hrun, ?_⟩
    refine hrestored hapart Marker.Matches _ frames Marker.faithful_matches hmatch ?_ s rs hrun
    rw [hes]
    decide +kernel

/-- **A response can have a reserved bit claimed twice.**  Differently named extensions of the
usual registry claim different bits.  A response is accepted that agrees to the compression
twice, so that two extensions of the channel claim the first bit, and a frame of a peer with
the same extensions is not restored. -/
theorem bit_claimed_twice :
    let request : Request := { host := "a.b", resource := "/", key := "AAAAAAAAAAAAAAAAAAAAAA==" }
    let line := "permessage-deflate; server_no_context_takeover"
    let response : Response :=
      .accepting request.key [Bytes.ofLatin line, Bytes.ofLatin line]
    Registry.standard.BitsApart ∧ ∃ accepted, validate request response = .ok accepted
      ∧ let es := Registry.standard.instantiate accepted.extensions
        es.map reservedBits = [{ rsv1 := true }, { rsv1 := true }]
        ∧ ((Pipeline.Ends.run ⟨⟨es⟩, ⟨es⟩⟩ [(.there, .single .text [])]).map Prod.snd)
          = .ok [.ok (.single .text [0])] := by
  intro request line response
  let config : Config :=
    { name := "permessage-deflate", params := [{ name := "server_no_context_takeover" }] }
  have hread : readExtensions [Bytes.ofLatin line, Bytes.ofLatin line] = .ok [config, config] := by
    decide +kernel
  refine ⟨Registry.bitsApart_standard, _, validate_accepting request hread, ?_, ?_⟩
  · decide +kernel
  · decide +kernel

end WebSocket.Handshake
