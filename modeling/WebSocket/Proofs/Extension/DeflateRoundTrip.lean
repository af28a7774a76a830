/-
WebSocket/Proofs/Extension/DeflateRoundTrip.lean

Messages that were compressed at one end are restored at the other.

Design.  Between two frames, both ends are in the same place of the same message (`InStep`): the
compressor has taken the parts so far, and the decompressor has made them of what the compressor
has written.  A frame that is part of a message takes both a part further (`InStep.part`), and
any other frame passes as it is (`pass_of_not_isPart`), so the frames of any number of messages
do (`InStep.restores`).

The marker is what could get lost.  It is missing at the end of a message, if it was there, and
the reader puts it back in any case (`exists_inflate_compressedPart`); where the last flush has
written nothing, it is read between two blocks, and nothing comes of it.

What this asks of a compressor, `LzCompressor` does (`restores_of_lzCompressor`).
-/
import WebSocket.Extension.Deflate
import WebSocket.Proofs.Flate.Deflation

namespace WebSocket.Extension.Deflate

open Flate

/-! ### Frames of messages -/

/-- Whether a frame is part of a message. -/
def isPart (f : Frame) : Bool :=
  beginsMessage f || f.opcode = .continuation

/-- Frames as an application sends them, without reserved bits: a message is begun where none is
open, and only then it goes on, up to its last frame.  Other frames may stand anywhere. -/
def isWellFormed (isOpen : Bool) : List Frame → Bool
  | [] => true
  | f :: fs =>
    f.rsv = {}
      && if isPart f then beginsMessage f != isOpen && isWellFormed (!f.fin) fs
        else isWellFormed isOpen fs

/-- The messages that frames make up, each in its parts, the last of them possibly without an
end; `front` are the parts of the message that is open. -/
def messages (front : List Bytes) : List Frame → List (List Bytes)
  | [] => [front]
  | f :: fs =>
    if isPart f then
      if f.fin then (front ++ [f.payload]) :: messages [] fs
      else messages (front ++ [f.payload]) fs
    else messages front fs

variable {κ κ' δ δ' : Type} [Compressor κ] [Decompressor δ]

/-- Compresses one frame after the other. -/
def encodeAll (e : Deflate κ δ') : List Frame → Except ExtensionError (List Frame)
  | [] => .ok []
  | f :: fs => do
    let g ← (e.encode f).2
    return g :: (← (e.encode f).1.encodeAll fs)

/-- Decompresses one frame after the other. -/
def decodeAll (e : Deflate κ' δ) : List Frame → Except ExtensionError (List Frame)
  | [] => .ok []
  | f :: fs => do
    let g ← (e.decode f).2
    return g :: (← (e.decode f).1.decodeAll fs)

@[simp] theorem ourBits_encode (e : Deflate κ δ') (f : Frame) :
    (e.encode f).1.ourBits = e.ourBits := by
  unfold encode
  split
  · rfl
  · split <;> rfl

@[simp] theorem maxMessageSize_decode (e : Deflate κ' δ) (f : Frame) :
    (e.decode f).1.maxMessageSize = e.maxMessageSize := by
  unfold decode
  split
  · rfl
  · split <;> rfl

/-- The open message is the front of one of them. -/
theorem exists_mem_messages (front : List Bytes) (fs : List Frame) :
    ∃ m ∈ messages front fs, front <+: m := by
  induction fs generalizing front with
  | nil => exact ⟨front, List.mem_singleton_self _, List.prefix_rfl⟩
  | cons f fs ih =>
    unfold messages
    split
    · split
      · exact ⟨_, List.mem_cons_self, List.prefix_append _ _⟩
      · obtain ⟨m, hm, hfront⟩ := ih (front ++ [f.payload])
        exact ⟨m, hm, (List.prefix_append _ _).trans hfront⟩
    · exact ih front

/-! ### The marker -/

/-- A flush that ends with the marker is received as it was made. -/
theorem sentPart_append_flushMarker {flushed : Bytes} (h : flushMarker <:+ flushed) :
    sentPart true flushed ++ flushMarker = flushed := by
  obtain ⟨front, rfl⟩ := h
  simp [sentPart, List.isSuffixOf_iff_suffix]

/-- What is sent of a flush inflates to what was given, with the marker put back at the end of
the message. -/
theorem exists_inflate_compressedPart {limit w : Nat} {d d' : Inflater} {flushed part : Bytes}
    {g : Frame} (hw : d.windowBits ≤ w) (hy : d.Yields flushed part d')
    (hlimit : part.length ≤ limit)
    (hmarker : flushMarker <:+ flushed ∨ flushed = [] ∧ d'.BetweenBlocks)
    (hg : g.payload = sentPart g.fin flushed) :
    ∃ d'', inflate limit (d.withPast w d.history) (compressedPart g) = .ok (d'', part)
      ∧ (g.fin = false → d'' = d'.withPast w d'.history) := by
  unfold compressedPart
  rw [hg]
  rcases hfin : g.fin with - | -
  · exact ⟨_, Inflater.inflate_of_yields hw hy hlimit, fun _ => rfl⟩
  · rw [if_pos rfl]
    rcases hmarker with hsuffix | ⟨rfl, hbetween⟩
    · rw [sentPart_append_flushMarker hsuffix]
      exact ⟨_, Inflater.inflate_of_yields hw hy hlimit, nofun⟩
    · -- Nothing was written, so the reader has the marker alone.
      obtain ⟨d'', hd''⟩ := hbetween.exists_yields_flushMarker
      have hall := hy.append hd''
      rw [List.append_nil] at hall
      exact ⟨_, Inflater.inflate_of_yields hw hall hlimit, nofun⟩

/-! ### Both ends -/

/-- Between two frames: both ends have taken the parts `front` of the message that is open. -/
structure InStep (front : List Bytes) (e₁ : Deflate κ δ') (e₂ : Deflate κ' Inflater) : Prop where
  window : e₁.ourBits ≤ e₂.theirBits
  compressor : front ≠ [] → e₁.compressor = some (flushes κ e₁.ourBits front).1
  decompressor : front ≠ [] → ∃ d, ({ windowBits := e₁.ourBits } : Inflater).Yields
      (flushes κ e₁.ourBits front).2 front.flatten d
    ∧ e₂.decompressor = some (d.withPast e₂.theirBits d.history)
  inflated : front ≠ [] → e₂.inflated = front.flatten.length

/-- Where no message is open, it does not matter what is left of the one before. -/
theorem inStep_nil {e₁ : Deflate κ δ'} {e₂ : Deflate κ' Inflater} (h : e₁.ourBits ≤ e₂.theirBits) :
    InStep [] e₁ e₂ :=
  ⟨h, nofun, nofun, nofun⟩

section

variable {front : List Bytes} {e₁ : Deflate κ δ'} {e₂ : Deflate κ' Inflater} {f : Frame}

/-- What is no part of a message passes the reader as it is. -/
theorem decode_of_not_isPart (e : Deflate κ' δ) (hf : isPart f = false) :
    e.decode f = (e, .ok f) := by
  simp only [isPart, Bool.or_eq_false_iff, decide_eq_false_iff_not] at hf
  obtain ⟨hbegins, hcontinues⟩ := hf
  simp [decode, decompressorFor?, hbegins, hcontinues]

/-- And it passes both ends. -/
theorem pass_of_not_isPart (e₁ : Deflate κ δ') (e₂ : Deflate κ' Inflater)
    (hf : isPart f = false) :
    e₁.encode f = (e₁, .ok f) ∧ e₂.decode f = (e₂, .ok f) := by
  refine ⟨?_, decode_of_not_isPart e₂ hf⟩
  simp only [isPart, Bool.or_eq_false_iff, decide_eq_false_iff_not] at hf
  obtain ⟨hbegins, hcontinues⟩ := hf
  simp [encode, compressorFor?, hbegins, hcontinues]

theorem InStep.compressorFor?_eq (h : InStep front e₁ e₂) (hf : isPart f)
    (hbegins : beginsMessage f = front.isEmpty) :
    e₁.compressorFor? f = some (flushes κ e₁.ourBits front).1 := by
  rcases front with - | ⟨part, front⟩
  · simp only [compressorFor?, hbegins, List.isEmpty_nil, if_pos]
    rfl
  · have hcontinues : f.opcode = .continuation := by simpa [isPart, hbegins] using hf
    simp only [compressorFor?, hbegins, List.isEmpty_cons, Bool.false_eq_true, if_false,
      if_pos hcontinues]
    exact h.compressor (List.cons_ne_nil _ _)

theorem InStep.exists_decompressorFor?_eq (h : InStep front e₁ e₂) (hf : isPart f)
    (hbegins : beginsMessage f = front.isEmpty) {g : Frame} (hopcode : g.opcode = f.opcode)
    (hrsv : g.rsv.rsv1 = beginsMessage f) :
    ∃ d, ({ windowBits := e₁.ourBits } : Inflater).Yields
        (flushes κ e₁.ourBits front).2 front.flatten d
      ∧ e₂.decompressorFor? g = some (d.withPast e₂.theirBits d.history, front.flatten.length) := by
  have hg : beginsMessage g = beginsMessage f := by simp only [beginsMessage, hopcode]
  rcases front with - | ⟨part, front⟩
  · refine ⟨_, .done ⟨rfl, fun _ => rfl⟩, ?_⟩
    simp only [decompressorFor?, hg, hrsv, hbegins, List.isEmpty_nil, Bool.and_self, if_pos]
    rfl
  · have hcontinues : f.opcode = .continuation := by simpa [isPart, hbegins] using hf
    obtain ⟨d, hd, hheld⟩ := h.decompressor (List.cons_ne_nil _ _)
    refine ⟨d, hd, ?_⟩
    simp only [decompressorFor?, hg, hbegins, hopcode, hcontinues, List.isEmpty_cons,
      Bool.false_and, Bool.false_eq_true, if_false, if_pos, hheld, Option.map_some,
      h.inflated (List.cons_ne_nil _ _)]

/-- A part of a message is restored, and both ends have taken it. -/
theorem InStep.part (h : InStep front e₁ e₂) (hf : isPart f)
    (hbegins : beginsMessage f = front.isEmpty) (hrsv : f.rsv = {}) {m : List Bytes}
    (hm : front ++ [f.payload] <+: m) (hflushes : SyncFlushes κ e₁.ourBits m)
    (hsize : m.flatten.length ≤ e₂.maxMessageSize) :
    ∃ g, (e₁.encode f).2 = .ok g ∧ (e₂.decode g).2 = .ok f
      ∧ InStep (if f.fin then [] else front ++ [f.payload]) (e₁.encode f).1 (e₂.decode g).1 := by
  have hcompressor := h.compressorFor?_eq hf hbegins
  obtain ⟨hsteady, hsync⟩ := hflushes
  obtain ⟨c, flushed, hflush, -⟩ :=
    exists_deflate_eq hsteady (reached_flushes hsteady front) f.payload
  obtain ⟨d', hd', hmarker⟩ := hsync front f.payload hm flushed (by rw [hflush])
  let g : Frame :=
    { f with rsv.rsv1 := f.rsv.rsv1 || beginsMessage f, payload := sentPart f.fin flushed }
  have hencode : e₁.encode f
      = ({ e₁ with compressor := if f.fin then none else some c }, .ok g) := by
    simp only [encode, hcompressor, hflush]
    rfl
  obtain ⟨d, hd, hdecompressor⟩ :=
    h.exists_decompressorFor?_eq hf hbegins (g := g) rfl (by simp [g, hrsv])
  -- What the part before have left is where the reader of this part begins.
  obtain ⟨rest, hrest, hpart⟩ := hd.of_append hd'
  obtain rfl : f.payload = rest := List.append_cancel_left hrest
  have hlength : front.flatten.length + f.payload.length ≤ e₂.maxMessageSize := by
    obtain ⟨back, rfl⟩ := hm
    simp only [List.flatten_append, List.flatten_singleton, List.length_append] at hsize
    omega
  have hwindow : d.windowBits ≤ e₂.theirBits := by
    rw [hd.past.1]
    exact h.window
  have hlimit : f.payload.length ≤ e₂.maxMessageSize - front.flatten.length := by omega
  obtain ⟨d'', hinflate, hkept⟩ :=
    exists_inflate_compressedPart (g := g) hwindow hpart hlimit hmarker rfl
  have hrestored : ({ g with rsv.rsv1 := false, payload := f.payload } : Frame) = f := by
    simp only [g, hrsv]
    rw [← hrsv]
  have hdecode : e₂.decode g = ({ e₂ with
      decompressor := if f.fin then none else some d''
      inflated := front.flatten.length + f.payload.length }, .ok f) := by
    simp only [decode, hdecompressor, hinflate, hrestored]
    rfl
  refine ⟨g, by rw [hencode], by rw [hdecode], ?_⟩
  rw [hencode, hdecode]
  rcases hfin : f.fin with - | -
  · rw [if_neg Bool.false_ne_true]
    refine ⟨h.window, fun _ => ?_, fun _ => ⟨d', ?_, ?_⟩, fun _ => ?_⟩
    · simp only [flushes_concat, hflush, Bool.false_eq_true, if_false]
    · simp only [flushes_concat, hflush, flushedOf, List.flatten_append, List.flatten_singleton]
      exact hd'
    · simp only [Bool.false_eq_true, if_false, hkept hfin]
    · simp only [List.flatten_append, List.flatten_singleton, List.length_append]
  · exact inStep_nil h.window

/-- From any frame on, all that is sent is restored. -/
theorem InStep.restores (h : InStep front e₁ e₂) {fs : List Frame}
    (hfs : isWellFormed (!front.isEmpty) fs)
    (hflushes : ∀ m ∈ messages front fs, SyncFlushes κ e₁.ourBits m)
    (hsize : ∀ m ∈ messages front fs, m.flatten.length ≤ e₂.maxMessageSize) :
    ∃ gs, e₁.encodeAll fs = .ok gs ∧ e₂.decodeAll gs = .ok fs := by
  induction fs generalizing front e₁ e₂ with
  | nil => exact ⟨[], rfl, rfl⟩
  | cons f fs ih =>
    simp only [isWellFormed, Bool.and_eq_true, decide_eq_true_eq] at hfs
    obtain ⟨hrsv, hfs⟩ := hfs
    rcases hf : isPart f with - | -
    · obtain ⟨hencode, hdecode⟩ := pass_of_not_isPart e₁ e₂ hf
      simp only [messages, hf, Bool.false_eq_true, if_false] at hfs hflushes hsize
      obtain ⟨gs, hgs, hback⟩ := ih h hfs hflushes hsize
      exact ⟨f :: gs, by simp only [encodeAll, hencode]; rw [hgs]; rfl,
        by simp only [decodeAll, hdecode]; rw [hback]; rfl⟩
    · simp only [hf, if_true, Bool.and_eq_true, bne_iff_ne, ne_eq] at hfs
      obtain ⟨hbegins, hfs⟩ := hfs
      have hbegins : beginsMessage f = front.isEmpty := by simpa using hbegins
      obtain ⟨m, hm, hfront⟩ : ∃ m ∈ messages front (f :: fs), front ++ [f.payload] <+: m := by
        rw [messages, if_pos hf]
        split
        · exact ⟨_, List.mem_cons_self, List.prefix_rfl⟩
        · exact exists_mem_messages _ fs
      obtain ⟨g, hencode, hdecode, hnext⟩ :=
        h.part hf hbegins hrsv hfront (hflushes m hm) (hsize m hm)
      have hlater : ∀ m ∈ messages (if f.fin then [] else front ++ [f.payload]) fs,
          m ∈ messages front (f :: fs) := by
        rw [messages, if_pos hf]
        split
        · exact fun _ => List.mem_cons_of_mem _
        · exact fun _ => id
      have hfs' : isWellFormed (!(if f.fin then [] else front ++ [f.payload]).isEmpty) fs := by
        have hne : (front ++ [f.payload]).isEmpty = false := List.isEmpty_eq_false_iff.2 (by simp)
        rcases hfin : f.fin with - | - <;> simpa [hfin, hne] using hfs
      obtain ⟨gs, hgs, hback⟩ := ih hnext hfs'
        (fun m hm => by rw [ourBits_encode]; exact hflushes m (hlater m hm))
        (fun m hm => by rw [maxMessageSize_decode]; exact hsize m (hlater m hm))
      refine ⟨g :: gs, ?_, ?_⟩
      · simp only [encodeAll, hencode, hgs]
        rfl
      · simp only [decodeAll, hdecode, hback]
        rfl

end

/-- **What one end compresses, the other restores.**  An application sends messages of any
kind, size and number, in frames however it likes, empty ones included, and other frames between
them, none of them with a reserved bit.  Each end has the extension with any configuration, but
the window of the reader is no smaller than that of the writer, and no message is longer than
what the reader takes.

Of the compressor it is assumed that its flushes can be read one by one (`SyncFlushes`).  Then
every frame is compressed, and decompressing all that was sent gives the same frames. -/
theorem decodeAll_of_encodeAll (e₁ : Deflate κ δ') (e₂ : Deflate κ' Inflater) {fs : List Frame}
    (hfs : isWellFormed false fs) (hwindow : e₁.ourBits ≤ e₂.theirBits)
    (hflushes : ∀ m ∈ messages [] fs, SyncFlushes κ e₁.ourBits m)
    (hsize : ∀ m ∈ messages [] fs, m.flatten.length ≤ e₂.maxMessageSize) :
    ∃ gs, e₁.encodeAll fs = .ok gs ∧ e₂.decodeAll gs = .ok fs :=
  (inStep_nil hwindow).restores hfs hflushes hsize

/-- A message of two frames, the last of them empty, with a ping in between. -/
theorem decodeAll_of_encodeAll_of_empty_last :
    let e : Deflate LzCompressor Inflater := {}
    let fs : List Frame :=
      [{ opcode := .text, fin := false, payload := [72, 105] }, .single .ping [],
        { opcode := .continuation }]
    isWellFormed false fs ∧ e.ourBits ≤ e.theirBits
      ∧ (∀ m ∈ messages [] fs, SyncFlushes LzCompressor e.ourBits m)
      ∧ (∀ m ∈ messages [] fs, m.flatten.length ≤ e.maxMessageSize)
      ∧ ∃ gs, e.encodeAll fs = .ok gs ∧ e.decodeAll gs = .ok fs
        ∧ gs.map Frame.payload = [[0xf2, 0xc8, 0x04, 0x00, 0x00, 0x00, 0xff, 0xff], [], []] := by
  intro e fs
  have hfs : isWellFormed false fs := rfl
  have hflushes : ∀ m ∈ messages [] fs, SyncFlushes LzCompressor e.ourBits m :=
    fun m _ => LzCompressor.syncFlushes (Nat.le_refl 15) m
  have hsize : ∀ m ∈ messages [] fs, m.flatten.length ≤ e.maxMessageSize := by
    rw [show messages [] fs = [[[72, 105], []], []] from rfl]
    decide
  have hpayloads : (e.encodeAll fs).toOption.map (List.map Frame.payload)
      = some [[0xf2, 0xc8, 0x04, 0x00, 0x00, 0x00, 0xff, 0xff], [], []] := by
    decide +kernel
  obtain ⟨gs, hgs, hback⟩ := decodeAll_of_encodeAll e e hfs (Nat.le_refl _) hflushes hsize
  rw [hgs] at hpayloads
  exact ⟨hfs, Nat.le_refl _, hflushes, hsize, gs, hgs, hback, Option.some.inj hpayloads⟩

/-- With `LzCompressor` nothing has to be assumed of the compressor, as long as the window is one
that the format allows. -/
theorem restores_of_lzCompressor (e₁ : Deflate LzCompressor δ') (e₂ : Deflate κ' Inflater)
    {fs : List Frame} (hfs : isWellFormed false fs) (hbits : e₁.ourBits ≤ 15)
    (hwindow : e₁.ourBits ≤ e₂.theirBits)
    (hsize : ∀ m ∈ messages [] fs, m.flatten.length ≤ e₂.maxMessageSize) :
    ∃ gs, e₁.encodeAll fs = .ok gs ∧ e₂.decodeAll gs = .ok fs :=
  (inStep_nil hwindow).restores hfs (fun m _ => LzCompressor.syncFlushes hbits m) hsize

end WebSocket.Extension.Deflate
