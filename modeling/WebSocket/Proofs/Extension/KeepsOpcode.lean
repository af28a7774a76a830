/-
WebSocket/Proofs/Extension/KeepsOpcode.lean

The extensions that leave the opcode of a frame as it is on its way out: all that there are,
and what is built from them.  Those that are negotiated leave close frames as they are altogether.
-/
import WebSocket.Extension.Marker
import WebSocket.Extension.Registry
import WebSocket.Pipeline

namespace WebSocket

namespace Extension

open Flate

/-- A frame leaves an extension of this kind with the opcode with which it has come. -/
def KeepsOpcode (ε : Type) [Extension ε] : Prop :=
  ∀ (e : ε) (f g : Frame), (Extension.encode e f).2 = .ok g → g.opcode = f.opcode

theorem keepsOpcode_identity : KeepsOpcode Identity := by
  intro e f g h
  obtain rfl : f = g := Except.ok.inj h
  rfl

theorem keepsOpcode_marker : KeepsOpcode Marker := by
  intro e f g h
  by_cases hfail : e.failEncode = some e.encoded
  · simp [Extension.encode, Marker.encode, hfail] at h
  · simp only [Extension.encode, Marker.encode, hfail, if_false, Except.ok.injEq] at h
    rw [← h]

theorem keepsOpcode_deflate {κ δ : Type} [Compressor κ] [Decompressor δ] :
    KeepsOpcode (Deflate κ δ) := by
  intro e f g h
  rcases hc : e.compressorFor? f with - | c
  · simp only [Extension.encode, Deflate.encode, hc, Except.ok.injEq] at h
    rw [← h]
  · rcases hflush : deflate c f.payload with ⟨c', err | flushed⟩
    · simp only [Extension.encode, Deflate.encode, hc, hflush] at h
      cases h
    · simp only [Extension.encode, Deflate.encode, hc, hflush, Except.ok.injEq] at h
      rw [← h]

/-- Extensions of two kinds keep the opcode if both kinds do. -/
theorem keepsOpcode_sum {α β : Type} [Extension α] [Extension β] (hα : KeepsOpcode α)
    (hβ : KeepsOpcode β) : KeepsOpcode (α ⊕ β) := by
  rintro (e | e) f g h
  · exact hα e f g h
  · exact hβ e f g h

/-- **Nothing here changes an opcode**: not the extension that compresses, not the one that
marks, not the one that does nothing, in any list. -/
theorem keepsOpcode_all {κ δ : Type} [Compressor κ] [Decompressor δ] :
    KeepsOpcode (Deflate κ δ ⊕ Marker ⊕ Identity) :=
  keepsOpcode_sum keepsOpcode_deflate (keepsOpcode_sum keepsOpcode_marker keepsOpcode_identity)

/-- A close frame leaves an extension of this kind as it has come. -/
def LeavesCloses (ε : Type) [Extension ε] : Prop :=
  ∀ (e : ε) (f : Frame), f.opcode = .close → (Extension.encode e f).2 = .ok f

theorem leavesCloses_identity : LeavesCloses Identity :=
  fun _ _ _ => rfl

theorem leavesCloses_deflate {κ δ : Type} [Compressor κ] [Decompressor δ] :
    LeavesCloses (Deflate κ δ) := by
  intro e f hclose
  have hnone : e.compressorFor? f = none := by
    simp [Deflate.compressorFor?, Deflate.beginsMessage, hclose]
  simp only [Extension.encode, Deflate.encode, hnone]

theorem leavesCloses_sum {α β : Type} [Extension α] [Extension β] (hα : LeavesCloses α)
    (hβ : LeavesCloses β) : LeavesCloses (α ⊕ β) := by
  rintro (e | e) f hclose
  · exact hα e f hclose
  · exact hβ e f hclose

/-- Nothing that is negotiated, unless other extensions are asked for, changes a close frame. -/
theorem leavesCloses_standard : LeavesCloses Standard :=
  leavesCloses_sum leavesCloses_identity leavesCloses_deflate

end Extension

namespace Pipeline

variable {ε : Type} [Extension ε]

theorem opcode_encodeThrough (hε : Extension.KeepsOpcode ε) {es : List ε} {f g : Frame}
    (h : (encodeThrough es f).2 = .ok g) : g.opcode = f.opcode := by
  induction es generalizing f with
  | nil =>
    obtain rfl : f = g := Except.ok.inj h
    rfl
  | cons e es ih =>
    rw [encodeThrough] at h
    rcases he : Extension.encode e f with ⟨e', err | f'⟩
    · rw [he] at h
      cases h
    · rw [he] at h
      have hfirst : f'.opcode = f.opcode := hε e f f' (by rw [he])
      exact (ih h).trans hfirst

/-- So it leaves all extensions of a channel. -/
theorem opcode_outgoing (hε : Extension.KeepsOpcode ε) {p p' : Pipeline ε} {f g : Frame}
    (h : p.outgoing f = (p', .ok g)) : g.opcode = f.opcode :=
  opcode_encodeThrough hε (congrArg Prod.snd h)

theorem encodeThrough_close (hε : Extension.LeavesCloses ε) (es : List ε) {f : Frame}
    (hclose : f.opcode = .close) : (encodeThrough es f).2 = .ok f := by
  induction es with
  | nil => rfl
  | cons e es ih =>
    rw [encodeThrough]
    rcases he : Extension.encode e f with ⟨e', r⟩
    obtain rfl : r = .ok f := by
      rw [← hε e f hclose, he]
    exact ih

/-- A close frame leaves all extensions of a channel as it has come. -/
theorem outgoing_close (hε : Extension.LeavesCloses ε) (p : Pipeline ε) {f : Frame}
    (hclose : f.opcode = .close) : (p.outgoing f).2 = .ok f :=
  encodeThrough_close hε p.extensions hclose

end Pipeline

end WebSocket
