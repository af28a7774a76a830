/-
WebSocket/Proofs/Extension/MaskBlind.lean

The extensions that do not look at masks: all that there are, and what is built from them.

Each lemma holds for every relation between masks, so it also covers extensions of several
kinds in one list (`respects_sum`), where a kind of which nothing is known may be of use
with equal masks only.
-/
import WebSocket.Extension.Either
import WebSocket.Extension.Identity
import WebSocket.Extension.Marker
import WebSocket.Extension.Deflate
import WebSocket.Proofs.Channel.Alike

namespace WebSocket.Extension

open Flate

variable {R : UInt32 → UInt32 → Prop}

theorem respects_identity : Respects Identity R :=
  fun _ _ _ h => ⟨rfl, .ok h⟩

theorem respects_marker : Respects Marker R := by
  rintro e f _ ⟨key, hkey⟩
  by_cases hfail : e.failEncode = some e.encoded
  · simp only [Extension.encode, Marker.encode, hfail, if_true]
    exact ⟨trivial, .error _⟩
  · simp only [Extension.encode, Marker.encode, hfail, if_false]
    exact ⟨trivial, .ok ⟨key, hkey⟩⟩

theorem respects_deflate {κ δ : Type} [Compressor κ] [Decompressor δ] :
    Respects (Deflate κ δ) R := by
  rintro e f _ ⟨key, hkey⟩
  -- Which compressor is taken depends on the opcode, which both frames share.
  have hcompressor : e.compressorFor? { f with mask := key } = e.compressorFor? f := rfl
  rcases hc : e.compressorFor? f with - | c
  · simp only [Extension.encode, Deflate.encode, hcompressor, hc]
    exact ⟨trivial, .ok ⟨key, hkey⟩⟩
  · rcases hflush : deflate c f.payload with ⟨c', err | flushed⟩
    · simp only [Extension.encode, Deflate.encode, hcompressor, hc, hflush]
      exact ⟨trivial, .error _⟩
    · simp only [Extension.encode, Deflate.encode, hcompressor, hc, hflush]
      exact ⟨trivial, .ok ⟨key, hkey⟩⟩

/-- Extensions of two kinds respect what both kinds respect. -/
theorem respects_sum {α β : Type} [Extension α] [Extension β] (hα : Respects α R)
    (hβ : Respects β R) : Respects (α ⊕ β) R := by
  rintro (e | e) f g h
  · exact ⟨congrArg Sum.inl (hα e f g h).1, (hα e f g h).2⟩
  · exact ⟨congrArg Sum.inr (hβ e f g h).1, (hβ e f g h).2⟩

/-- **Nothing here looks at masks**: not the extension that compresses, not the one that
marks, not the one that does nothing, in any list. -/
theorem maskBlind_all {κ δ : Type} [Compressor κ] [Decompressor δ] :
    MaskBlind (Deflate κ δ ⊕ Marker ⊕ Identity) :=
  respects_sum respects_deflate (respects_sum respects_marker respects_identity)

end WebSocket.Extension
