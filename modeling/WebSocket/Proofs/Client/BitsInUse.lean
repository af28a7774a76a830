/-
WebSocket/Proofs/Client/BitsInUse.lean

The reserved bits of a channel are those that its extensions declare, in both directions.

The encoder and the decoder of a channel get the same bits (`mem_claim_iff`).  So a frame that
leaves the extensions with another bit is refused and not written, at whatever moment it is sent
(`refused_iff_hasUndeclared`), and no frame that is read with another bit gets to an extension or
to the application.  The first such frame ends the connection, as its lead is an error of the
decoder.
-/
import WebSocket.Proofs.Channel.BitsInUse
import WebSocket.Proofs.Client.Delivery
import WebSocket.Proofs.Frame.BitsInUse

namespace WebSocket

open Extension

variable {σ ε : Type} [Extension ε]

/-- A channel as it is connected, with octets that came with the answer to the request and a
limit for what it reads. -/
def Channel.connected (log : List Event) (onWrite : List (List Outgoing)) (keys : Nat → UInt32)
    (session : σ) (extensions : List ε) (buffer : Array UInt8) (limit : UInt64) : Channel σ ε :=
  let channel := Channel.connect { log, onWrite, keys } session extensions
  { channel with buffer, decoder := { channel.decoder with limit } }

namespace Client

variable [Session σ]

/-- In a run the handler is a channel, or was one until it was dropped, that has read the stream
so far and has met these frames. -/
theorem exists_hasRead {channel : Channel σ ε} (hopen : channel.closed = false)
    (actions : List Action) :
    let start := ofChannel channel
    let final := start.run (.call .opened :: actions)
    let met := start.encounters (.call .opened :: actions)
    ∃ (k : Channel σ ε) (stream : Bytes), final.link = k.link
      ∧ Channel.HasRead channel.decoder stream met k ∧ channel.Meets met k
      ∧ channel.buffer.toList ++ (actions.flatMap Action.arrived).flatMap Inbound.octets
        = stream ++ final.input.flatMap Inbound.octets := by
  intro start final met
  -- The first call reads the buffer, and the others what arrives.
  obtain ⟨k, taken, hruns, hadvances, htaken⟩ :=
    Runs.run (c := (start.act (.call .opened)).1) (k := channel.opened) ⟨rfl, .inl rfl, rfl⟩ actions
  refine ⟨k, channel.buffer.toList ++ taken, hruns.link,
    hadvances.hasRead (Channel.hasRead_opened hopen),
    (Channel.advances_opened channel).meets.trans hadvances.meets, ?_⟩
  rw [List.append_assoc]
  exact congrArg (channel.buffer.toList ++ ·) htaken

/-- **Reserved bits reach both codecs exactly.**  When extensions are put between an encoder and
a decoder, the bits in use on either side are those that were in use, and those that one of the
extensions declares, whatever their order is.

Now let them be the extensions of a channel.  At any moment, also in the middle of a write, a
frame that is sent is refused for a reserved bit if and only if it leaves the extensions with one
that none of them declares; the first such bit is named, and nothing is left of the frame that
could be written.  And whatever befalls the client, the frames that get to the extensions and to
the application have declared bits only: where a frame with another bit begins in the `stream`
that is read, no frame but those in front of it is met, and the endpoint is closed. -/
theorem reserved_bits_exact (log : List Event) (onWrite : List (List Outgoing))
    (keys : Nat → UInt32) (session : σ) (extensions : List ε) (buffer : Array UInt8)
    (limit : UInt64) :
    let channel := Channel.connected log onWrite keys session extensions buffer limit
    (∀ (encoder decoder : ReservedBits) (n : Nat),
        let built := Pipeline.build extensions encoder decoder
        (n ∈ built.encoder ↔ n ∈ encoder ∨ Declared extensions n)
          ∧ (n ∈ built.decoder ↔ n ∈ decoder ∨ Declared extensions n))
      ∧ (∀ between moment : Link ε, channel.link.Reaches between → between.Sending moment →
        ∀ f : Frame,
          ((∃ n, (moment.send f).2 = .error (.codec (.reservedBit n)))
              ↔ ∃ g ∈ moment.leaving? f, HasUndeclared extensions g.rsv)
            ∧ ∀ n, (moment.send f).2 = .error (.codec (.reservedBit n)) →
              (∃ g ∈ moment.leaving? f, n ∈ g.rsv ∧ ¬Declared extensions n
                ∧ ∀ m ∈ g.rsv, m < n → Declared extensions m)
              ∧ (moment.send f).1.log = moment.log ∧ (moment.send f).1.pending = moment.pending
              ∧ (moment.send f).1.egress = [])
      ∧ ∀ actions : List Action,
        let start := ofChannel channel
        let final := start.run (.call .opened :: actions)
        let met := start.encounters (.call .opened :: actions)
        channel.link.Reaches final.link
          ∧ ∃ (stream : Bytes) (E : List Event),
            buffer.toList ++ (actions.flatMap Action.arrived).flatMap Inbound.octets
              = stream ++ final.input.flatMap Inbound.octets
            ∧ final.events = channel.link.events ++ E
            ∧ E.filterMap Event.delivered?
              = met.filterMap (fun m => (m.link.incoming m.frame).2.toOption)
            ∧ (∀ m ∈ met, ¬HasUndeclared extensions m.frame.rsv)
            ∧ ∀ (front rest : Bytes) (lead : Frame.Lead) (fs : List Frame),
              stream = front ++ lead.first :: lead.second :: rest →
              channel.decoder.drain front = ⟨channel.decoder, [], fs, none⟩ →
              HasUndeclared extensions lead.rsv →
              met.map Encounter.frame <+: fs ∧ .close ∈ E ∧ final.link.closed := by
  intro channel
  refine ⟨fun encoder decoder n => ⟨Pipeline.mem_claim_iff, Pipeline.mem_claim_iff⟩, ?_, ?_⟩
  · intro between moment hreach hsend f
    exact Link.refused_iff_hasUndeclared ⟨rfl, rfl, rfl⟩ rfl hreach hsend f
  · intro actions start final met
    obtain ⟨k, stream, hfinal, hread, hmeets, hstream⟩ :=
      exists_hasRead (show channel.closed = false from rfl) actions
    obtain ⟨⟨E, hE, hgiven, hclose⟩, hlink⟩ := hmeets.logged rfl
    have hmet : met.map Encounter.frame <+: (channel.decoder.drain stream).frames := by
      rcases hread.frames with hall | ⟨-, hsome⟩
      · exact hall ▸ List.prefix_rfl
      · exact hsome
    have hreach : channel.link.Reaches final.link := by
      rw [hfinal]
      exact hmeets.reaches
    refine ⟨hreach, stream, E, hstream, ?_, ?_, ?_, ?_⟩
    · rw [← hE, ← hfinal]
      rfl
    · rw [hgiven]
      exact List.filterMap_congr fun m _ => m.delivered_fate
    · intro m hm hbad
      have hf := hmet.subset (List.mem_map_of_mem hm)
      have hsubset : m.frame.rsv ⊆ channel.decoder.inUse :=
        Decoder.rsv_subset_of_mem_drain (d := channel.decoder) nofun hf
      exact Pipeline.not_subset_claim_iff.2 hbad hsubset
    · rintro front rest lead fs rfl hfront hbad
      have hbit : ¬lead.rsv ⊆ channel.decoder.inUse := Pipeline.not_subset_claim_iff.2 hbad
      obtain ⟨hframes, herror⟩ := Decoder.drain_append_lead rfl hfront hbit rest
      have hclosed : k.closed := by
        by_contra hk
        rw [hread.waits (by simpa using hk)] at herror
        cases herror
      rw [hframes] at hmet
      refine ⟨hmet, hclose.2 hclosed, ?_⟩
      rw [hfinal, hlink, hclosed, Bool.or_true]

/-- There are two extensions, which declare the first bit and the first and the third one.  A
frame that is sent with the second bit is refused, and one that arrives with it behind another
frame ends the connection. -/
theorem reserved_bits_exact_of_second_bit :
    let marker (bits : ReservedBits) : Marker := { label := "mark", mark := [1], bits }
    let extensions := [marker { rsv1 := true }, marker { rsv1 := true, rsv3 := true }]
    let channel : Channel Script Marker := .connected [] [] (fun _ => 0) {} extensions #[] 1000
    let actions : List Action := [.arrive [.data [0xd1, 1, 97, 0xa1, 1, 98]], .call .readable]
    let start := ofChannel channel
    let final := start.run (.call .opened :: actions)
    let f : Frame := { opcode := .text, rsv := { rsv1 := true, rsv2 := true } }
    (3 ∈ (Pipeline.build extensions {} {}).encoder ∧ 2 ∉ (Pipeline.build extensions {} {}).decoder)
      ∧ (∃ n, (channel.link.send f).2 = .error (.codec (.reservedBit n)))
      ∧ (start.encounters (.call .opened :: actions)).map Encounter.frame
        <+: [{ opcode := .text, rsv := { rsv1 := true, rsv3 := true }, payload := [97] }]
      ∧ final.link.closed := by
  intro marker extensions channel actions start final f
  obtain ⟨hbits, hsent, hread⟩ :=
    reserved_bits_exact [] [] (fun _ => 0) ({} : Script) extensions #[] 1000
  have hthird : Declared extensions 3 := by decide
  have hsecond : ¬Declared extensions 2 := by decide
  refine ⟨⟨(hbits {} {} 3).1.2 (.inr hthird), fun h => ?_⟩, ?_, ?_⟩
  · rcases (hbits {} {} 2).2.1 h with h | h
    · exact absurd h (by decide)
    · exact hsecond h
  · -- Each extension leaves its mark on the frame, and it has its bits when it leaves them.
    let leaving : Frame := { f with masked := true, payload := [1, 1] }
    have hleaving : leaving ∈ channel.link.leaving? f := by decide +kernel
    exact (hsent channel.link channel.link .refl .refl f).1.2
      ⟨leaving, hleaving, 2, by decide, hsecond⟩
  · have hinput : final.input = [] := by decide +kernel
    have hfront : channel.decoder.drain [0xd1, 1, 97] = ⟨channel.decoder, [],
        [{ opcode := .text, rsv := { rsv1 := true, rsv3 := true }, payload := [97] }], none⟩ := by
      decide +kernel
    simp only [final, start, channel] at hinput hfront ⊢
    obtain ⟨-, stream, E, hstream, -, -, -, hend⟩ := hread actions
    have hall : stream = [0xd1, 1, 97] ++ 0xa1 :: 1 :: [98] := by
      rw [hinput, List.flatMap_nil, List.append_nil] at hstream
      exact hstream.symm
    obtain ⟨hmet, -, hclosed⟩ :=
      hend [0xd1, 1, 97] [98] ⟨0xa1, 1⟩ _ hall hfront ⟨2, by decide, hsecond⟩
    exact ⟨hmet, hclosed⟩

end Client

end WebSocket
