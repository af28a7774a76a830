/-
WebSocket/Proofs/Extension/Fragments.lean

Which compressed messages are read, and that it does not matter how they are cut into frames.

Design.  What a peer sends is a stream of blocks, less the marker (`Series`); whoever has made it
may have chosen any blocks and any codes.  A decoder reads the octets of a stream in parts as it
reads them as a whole, so each frame is decompressed to its share of the message
(`Carries.decodeAll`), and the marker behind the last frame completes the stream.

A stream may have a last block in the middle.  Then the decoder is at its end there, and what
comes behind that block is taken for a stall (`decode_eq_error`).

Main results: a message is read however it is cut (`decodeAll_of_carries`), and a message in one
frame is read exactly if no block but possibly the final one is a last block (`decode_of_series`).
-/
import WebSocket.Proofs.Extension.DeflateRoundTrip

namespace WebSocket.Extension.Deflate

open Flate

variable {κ : Type}

/-! ### Frames of one message -/

/-- Whether a frame is the next part of a compressed message.  Only the first one is marked. -/
def isNext (begun : Bool) (f : Frame) : Bool :=
  if begun then f.opcode = .continuation else beginsMessage f && f.rsv.rsv1

/-- Frames that carry `payload` as what is left of a compressed message.  It is cut anywhere, also
into empty parts, and other frames stand anywhere between the parts. -/
inductive Carries : (begun : Bool) → (payload : Bytes) → List Frame → Prop
  | other {begun : Bool} {payload : Bytes} {f : Frame} {fs : List Frame} (hf : isPart f = false)
      (h : Carries begun payload fs) : Carries begun payload (f :: fs)
  | part {begun : Bool} {payload : Bytes} {f : Frame} {fs : List Frame} (hf : isNext begun f)
      (hfin : f.fin = false) (h : Carries true payload fs) :
      Carries begun (f.payload ++ payload) (f :: fs)
  | last {begun : Bool} {f : Frame} {fs : List Frame} (hf : isNext begun f) (hfin : f.fin = true)
      (hfs : ∀ g ∈ fs, isPart g = false) : Carries begun f.payload (f :: fs)

/-- A part of a compressed message as it is handed on: with other octets, and no mark. -/
def opened (f : Frame) (payload : Bytes) : Frame :=
  { f with rsv.rsv1 := false, payload }

/-- What becomes of a frame: a part of a message is opened, and anything else stays as it is. -/
def Opens (f g : Frame) : Prop :=
  if isPart f then ∃ payload, g = opened f payload else g = f

theorem isPart_of_isNext {begun : Bool} {f : Frame} (h : isNext begun f) : isPart f := by
  cases begun <;> simp_all [isNext, isPart]

theorem opens_of_isNext {begun : Bool} {f : Frame} (h : isNext begun f) (payload : Bytes) :
    Opens f (opened f payload) := by
  rw [Opens, if_pos (isPart_of_isNext h)]
  exact ⟨payload, rfl⟩

theorem opens_refl {fs : List Frame} (hfs : ∀ g ∈ fs, isPart g = false) :
    List.Forall₂ Opens fs fs :=
  List.forall₂_same.2 fun g hg => by simp [Opens, hfs g hg]

/-- The octets of the parts among some frames. -/
def partsOf (fs : List Frame) : Bytes :=
  ((fs.filter isPart).map Frame.payload).flatten

theorem partsOf_cons_opened {begun : Bool} {f : Frame} (h : isNext begun f) (payload : Bytes)
    (gs : List Frame) : partsOf (opened f payload :: gs) = payload ++ partsOf gs := by
  have hpart : isPart (opened f payload) := isPart_of_isNext (f := f) h
  rw [partsOf, List.filter_cons_of_pos hpart, List.map_cons, List.flatten_cons]
  rfl

theorem partsOf_cons_of_not_isPart {f : Frame} (hf : isPart f = false) (gs : List Frame) :
    partsOf (f :: gs) = partsOf gs := by
  rw [partsOf, List.filter_cons_of_neg (by simp [hf])]
  rfl

theorem partsOf_eq_nil {fs : List Frame} (hfs : ∀ g ∈ fs, isPart g = false) :
    partsOf fs = [] := by
  have hnone : fs.filter isPart = [] := List.filter_eq_nil_iff.2 fun g hg => by simp [hfs g hg]
  rw [partsOf, hnone]
  rfl

/-! ### One frame -/

section

variable {δ : Type} [Decompressor δ] {e : Deflate κ δ} {f : Frame} {d : δ}

/-- The decompressor for the next part is the one that is held. -/
theorem decompressorFor?_of_held (hf : isNext true f) (hd : e.decompressor = some d) :
    e.decompressorFor? f = some (d, e.inflated) := by
  have hcontinues : f.opcode = .continuation := by simpa [isNext] using hf
  have hbegins : beginsMessage f = false := by simp [beginsMessage, hcontinues]
  simp [decompressorFor?, hbegins, hcontinues, hd]

/-- The first part needs a new one. -/
theorem decompressorFor?_of_begins (hf : isNext false f) :
    e.decompressorFor? f = some (Decompressor.fresh e.theirBits, 0) := by
  have hbegins : (beginsMessage f && f.rsv.rsv1) = true := by simpa [isNext] using hf
  rw [decompressorFor?, if_pos hbegins]

/-- Frames that are no parts of a message change nothing. -/
theorem decodeAll_of_not_isPart {fs : List Frame} (e : Deflate κ δ)
    (hfs : ∀ g ∈ fs, isPart g = false) : e.decodeAll fs = .ok fs := by
  induction fs with
  | nil => rfl
  | cons f fs ih =>
    simp only [decodeAll, decode_of_not_isPart e (hfs f List.mem_cons_self),
      ih fun g hg => hfs g (List.mem_cons_of_mem _ hg)]
    rfl

end

section

variable {e : Deflate κ Inflater} {f : Frame} {d d' : Inflater} {n : Nat} {part : Bytes}

/-- A part is decompressed to what it yields.  If there are octets behind the end of the stream,
that is an error. -/
theorem decode_of_yields {input more : Bytes} (hd : e.decompressorFor? f = some (d, n))
    (hinput : compressedPart f = input ++ more) (hy : d.Yields input part d')
    (hmore : more = [] ∨ d'.mode = .finished) (hsize : n + part.length ≤ e.maxMessageSize) :
    e.decode f = if more = [] then
        ({ e with decompressor := if f.fin then none else some d', inflated := n + part.length },
          .ok (opened f part))
      else ({ e with decompressor := none, inflated := n }, .error .noProgress) := by
  have hlimit : part.length ≤ e.maxMessageSize - n := by omega
  simp only [decode, hd, hinput, Inflater.inflate_append_eq hy hmore hlimit]
  by_cases hnone : more = [] <;> simp [hnone, ofInflateError, opened]

theorem decode_eq_ok (hd : e.decompressorFor? f = some (d, n))
    (hy : d.Yields (compressedPart f) part d') (hsize : n + part.length ≤ e.maxMessageSize) :
    e.decode f = ({ e with
        decompressor := if f.fin then none else some d', inflated := n + part.length },
      .ok (opened f part)) :=
  decode_of_yields hd (List.append_nil _).symm hy (.inl rfl) hsize

end

/-! ### Cut anywhere -/

section

variable {begun : Bool} {payload message : Bytes} {fs : List Frame} {d d' : Inflater} {n : Nat}

/-- Wherever what is left of a message is cut, each part is decompressed to its share. -/
theorem Carries.decodeAll (h : Carries begun payload fs) {e : Deflate κ Inflater}
    (hd : ∀ f, isNext begun f → e.decompressorFor? f = some (d, n))
    (hy : d.Yields (payload ++ flushMarker) message d')
    (hsize : n + message.length ≤ e.maxMessageSize) :
    ∃ gs, e.decodeAll fs = .ok gs ∧ List.Forall₂ Opens fs gs
      ∧ partsOf gs = message := by
  induction h generalizing e d n message with
  | @other begun payload f fs hf _ ih =>
    obtain ⟨gs, hgs, hopens, hmessage⟩ := ih hd hy hsize
    refine ⟨f :: gs, ?_, ?_, ?_⟩
    · simp only [Deflate.decodeAll, decode_of_not_isPart e hf, hgs]
      rfl
    · exact .cons (by simp [Opens, hf]) hopens
    · rw [partsOf_cons_of_not_isPart hf, hmessage]
  | @part begun payload f fs hf hfin _ ih =>
    rw [List.append_assoc] at hy
    obtain ⟨share, d₁, hshare⟩ := hy.exists_prefix
    obtain ⟨rest, rfl, hrest⟩ := hshare.of_append hy
    rw [List.length_append] at hsize
    have hpart : compressedPart f = f.payload := by simp [compressedPart, hfin]
    have hdecode := decode_eq_ok (hd f hf) (hpart ▸ hshare) (by omega)
    let e₁ : Deflate κ Inflater :=
      { e with decompressor := some d₁, inflated := n + share.length }
    obtain ⟨gs, hgs, hopens, hmessage⟩ := ih (e := e₁) (d := d₁) (n := n + share.length)
      (fun g hg => decompressorFor?_of_held hg rfl) hrest
      (by show n + share.length + rest.length ≤ e.maxMessageSize; omega)
    refine ⟨opened f share :: gs, ?_, ?_, ?_⟩
    · simp only [Deflate.decodeAll, hdecode, hfin, Bool.false_eq_true, if_false]
      rw [hgs]
      rfl
    · exact .cons (opens_of_isNext hf share) hopens
    · rw [partsOf_cons_opened hf, hmessage]
  | @last begun f fs hf hfin hfs =>
    have hpart : compressedPart f = f.payload ++ flushMarker := by simp [compressedPart, hfin]
    have hdecode := decode_eq_ok (hd f hf) (hpart ▸ hy) hsize
    refine ⟨opened f message :: fs, ?_, ?_, ?_⟩
    · simp only [Deflate.decodeAll, hdecode, decodeAll_of_not_isPart _ hfs]
      rfl
    · exact .cons (opens_of_isNext hf message) (opens_refl hfs)
    · rw [partsOf_cons_opened hf, partsOf_eq_nil hfs, List.append_nil]

end

/-! ### Messages -/

section

variable {e : Deflate κ Inflater} {f : Frame} {message : Bytes} {lasts : List Bool}

/-- A new decoder is between two blocks. -/
theorem betweenBlocks_new (windowBits : Nat) :
    ({ windowBits } : Inflater).BetweenBlocks :=
  ⟨rfl, rfl, rfl⟩

/-- Where no block but possibly the final one is a last block, the stream is read as a whole. -/
theorem decode_eq_ok_of_series
    (hstream : Series (1 <<< e.theirBits) [] 0 lasts message
      ((f.payload ++ flushMarker).flatMap Inflater.bitsOf))
    (hlasts : true ∉ lasts.dropLast) (hsize : message.length ≤ e.maxMessageSize)
    (hf : isNext false f) (hfin : f.fin) : (e.decode f).2 = .ok (opened f message) := by
  have hpart : compressedPart f = f.payload ++ flushMarker := by rw [compressedPart, if_pos hfin]
  obtain ⟨d', hy, -⟩ := (betweenBlocks_new e.theirBits).exists_yields hstream hlasts
  rw [decode_eq_ok (decompressorFor?_of_begins hf) (hpart ▸ hy) (by omega)]

/-- Where a last block stands in front of another one, its end is taken for a stall. -/
theorem decode_eq_error_of_series
    (hstream : Series (1 <<< e.theirBits) [] 0 lasts message
      ((f.payload ++ flushMarker).flatMap Inflater.bitsOf))
    (hlasts : true ∈ lasts.dropLast) (hsize : message.length ≤ e.maxMessageSize)
    (hf : isNext false f) (hfin : f.fin) : (e.decode f).2 = .error .noProgress := by
  have hpart : compressedPart f = f.payload ++ flushMarker := by rw [compressedPart, if_pos hfin]
  obtain ⟨front, more, written, d', hdata, hne, hwritten, hy, hfinished⟩ :=
    (betweenBlocks_new e.theirBits).exists_finished hstream hlasts
  have hlimit : 0 + written.length ≤ e.maxMessageSize := by
    have := hwritten.length_le
    omega
  rw [decode_of_yields (decompressorFor?_of_begins hf) (hpart.trans hdata) hy (.inr hfinished)
    hlimit, if_neg hne]

/-- **It does not matter how a compressed message is cut.**  A peer sends a message as any blocks
in any codes, with references that reach back no further than the window, and none of them a last
one.  It cuts the octets anywhere, also inside of a code or of a stored block, and sends other
frames between the parts.

Then each frame is decompressed, and all parts together are the message, as they are if it comes in
one frame. -/
theorem decodeAll_of_carries {payload : Bytes} {fs : List Frame} {whole : Frame}
    (hstream : Series (1 <<< e.theirBits) [] 0 lasts message
      ((payload ++ flushMarker).flatMap Inflater.bitsOf))
    (hlasts : true ∉ lasts) (hsize : message.length ≤ e.maxMessageSize)
    (hfs : Carries false payload fs)
    (hwhole : isNext false whole) (hfin : whole.fin) (hpayload : whole.payload = payload) :
    (e.decode whole).2 = .ok (opened whole message)
      ∧ ∃ gs, e.decodeAll fs = .ok gs ∧ List.Forall₂ Opens fs gs ∧ partsOf gs = message := by
  have hopen : true ∉ lasts.dropLast := fun hmem => hlasts ((List.dropLast_sublist lasts).mem hmem)
  obtain ⟨d', hy, -⟩ := (betweenBlocks_new e.theirBits).exists_yields hstream hopen
  subst hpayload
  refine ⟨decode_eq_ok_of_series hstream hopen hsize hwhole hfin, ?_⟩
  exact hfs.decodeAll (fun f hf => decompressorFor?_of_begins hf) hy (by omega)

end

/-- A message in three blocks: one in codes of its own with a reference in it, a stored one, and the
one of the flush. -/
theorem series_of_three_blocks : Series (1 <<< 15) [] 0 [false, false, false] [97, 97, 97, 97, 98]
    (([0x0c, 0xc0, 0x81, 0x00, 0x00, 0x00, 0x00, 0x80, 0x20, 0xd6, 0xfc, 0x25, 0x3e, 0x0b, 0x01,
      0x00, 0xfe, 0xff, 0x62, 0x00] ++ flushMarker : Bytes).flatMap Inflater.bitsOf) := by
  let literals := List.replicate 97 0 ++ (1 :: (List.replicate 158 0 ++ [2, 2]))
  let code := [0, 2, 2] ++ List.replicate 15 0 ++ [1]
  have hcode : IsComplete code := ⟨by decide, by decide⟩
  have hruns : LengthsCoded code []
      (List.replicate (11 + 86) 0 ++ (1 :: (List.replicate (11 + 127) 0
        ++ (List.replicate (11 + 9) 0 ++ [2, 2, 1]))))
      ([false] ++ (numberBits 7 86 ++ ([true, false] ++ ([false] ++ (numberBits 7 127
        ++ ([false] ++ (numberBits 7 9 ++ ([true, true] ++ ([true, true] ++ ([true, false]
          ++ [])))))))))) := by
    refine .run .manyZeros (by decide) (by decide) (.length (by decide) (by decide) ?_)
    refine .run .manyZeros (by decide) (by decide) (.run .manyZeros (by decide) (by decide) ?_)
    refine .length (by decide) (by decide) (.length (by decide) (by decide) ?_)
    exact .length (by decide) (by decide) .nil
  have hlengths : (List.replicate (11 + 86) 0 ++ (1 :: (List.replicate (11 + 127) 0
      ++ (List.replicate (11 + 9) 0 ++ [2, 2, 1])))) = literals ++ [1] := by
    decide +kernel
  rw [hlengths] at hruns
  have hcodes : CodesCoded literals [1] _ :=
    .intro hcode (by decide) (by decide) (show 4 ≤ 18 ∧ 18 ≤ 19 by decide) (by decide)
      (by decide +kernel) (by decide) hruns
  have hts : Token.DenoteAll (1 <<< 15) [] [.literal 97, .reference (3 + 0) (1 + 0)]
      ([97] ++ ([97, 97, 97] ++ [])) := by
    refine .cons (.literal 97) (.cons ?_ .nil)
    exact .reference rfl (by decide) (by decide) (by decide) (by decide) (by decide)
      ⟨rfl, rfl, rfl, trivial⟩
  have hcoded : Token.CodedAll literals [1] [.literal 97, .reference (3 + 0) (1 + 0)]
      ([false] ++ (([true, true] ++ (numberBits 0 0 ++ ([false] ++ numberBits 0 0))) ++ [])) := by
    have hlength : lengthTable[0]? = some (3, 0) := rfl
    have hdistance : distanceTable[0]? = some (1, 0) := rfl
    refine .cons (.literal (by decide +kernel)) (.cons ?_ .nil)
    exact .reference hlength (by decide) (by decide +kernel) hdistance (by decide)
      (by decide +kernel)
  have hliterals : IsDataCode literals := .inl ⟨by decide +kernel, by decide +kernel⟩
  have hdistances : IsDataCode [1] := .inr ⟨by decide, by decide⟩
  have hend : word? literals endOfBlock = some [true, false] := by decide +kernel
  have hown : Body (1 <<< 15) [] 0 [97, 97, 97, 97] _ :=
    .dynamic hliterals hdistances hcodes hts hcoded hend
  have hblocks := Series.block hown
    (.block (@Body.stored (1 <<< 15) _ _ [98] [] (by decide) (by decide) (by decide +kernel))
      (.block (@Body.stored (1 <<< 15) _ _ [] (List.replicate 5 false) (by decide) (by decide)
        (by decide +kernel)) .nil))
  refine (congrArg (Series _ _ _ _ _) ?_).mp hblocks
  decide +kernel

/-- It is cut in the lengths of its codes, in the length of the stored block and behind an octet of
it, with an empty part and two other frames. -/
theorem decodeAll_of_carries_of_three_blocks :
    let e : Deflate LzCompressor Inflater := {}
    let payload : Bytes := [0x0c, 0xc0, 0x81, 0x00, 0x00, 0x00, 0x00, 0x80, 0x20, 0xd6, 0xfc, 0x25,
      0x3e, 0x0b, 0x01, 0x00, 0xfe, 0xff, 0x62, 0x00]
    let message : Bytes := [97, 97, 97, 97, 98]
    let fs : List Frame :=
      [{ opcode := .text, fin := false, rsv := { rsv1 := true },
         payload := [0x0c, 0xc0, 0x81, 0x00, 0x00] },
       .single .ping [1],
       { opcode := .continuation, fin := false, payload := [0x00, 0x00, 0x80, 0x20, 0xd6, 0xfc] },
       { opcode := .continuation, fin := false },
       { opcode := .continuation, fin := false, payload := [0x25, 0x3e, 0x0b, 0x01, 0x00, 0xfe] },
       .single .pong [],
       { opcode := .continuation, payload := [0xff, 0x62, 0x00] }]
    let whole : Frame := { opcode := .text, rsv := { rsv1 := true }, payload }
    Series (1 <<< e.theirBits) [] 0 [false, false, false] message
        ((payload ++ flushMarker).flatMap Inflater.bitsOf)
      ∧ true ∉ [false, false, false] ∧ message.length ≤ e.maxMessageSize
      ∧ Carries false payload fs ∧ isNext false whole ∧ whole.fin ∧ whole.payload = payload
      ∧ (e.decode whole).2 = .ok (opened whole message)
      ∧ ∃ gs, e.decodeAll fs = .ok gs ∧ List.Forall₂ Opens fs gs ∧ partsOf gs = message := by
  intro e payload message fs whole
  have hsize : message.length ≤ e.maxMessageSize := by decide
  have hfs : Carries false payload fs := by
    refine .part (f := fs[0]) rfl rfl (.other rfl ?_)
    refine .part (f := fs[2]) rfl rfl (.part (f := fs[3]) rfl rfl ?_)
    refine .part (f := fs[4]) rfl rfl (.other rfl ?_)
    exact .last (f := fs[6]) rfl rfl (by simp)
  exact ⟨series_of_three_blocks, by decide, hsize, hfs, rfl, rfl, rfl,
    decodeAll_of_carries series_of_three_blocks (by decide) hsize hfs rfl rfl rfl⟩

/-! ### Messages in one frame -/

/-- **A compressed message in one frame is read exactly if no block but possibly the final one is a
last block.**  The blocks, the codes and the references are any that the format has.  If a last
block stands in front of another one, that is an error, whatever follows. -/
theorem decode_of_series {e : Deflate κ Inflater} {f : Frame} {message : Bytes} {lasts : List Bool}
    (hstream : Series (1 <<< e.theirBits) [] 0 lasts message
      ((f.payload ++ flushMarker).flatMap Inflater.bitsOf))
    (hsize : message.length ≤ e.maxMessageSize) (hf : isNext false f) (hfin : f.fin) :
    (e.decode f).2 = if true ∈ lasts.dropLast then .error .noProgress
      else .ok (opened f message) := by
  split
  · next hlast => exact decode_eq_error_of_series hstream hlast hsize hf hfin
  · next hopen => exact decode_eq_ok_of_series hstream hopen hsize hf hfin

/-- A message in one block of the fixed codes, and one last block of the flush. -/
theorem decode_of_series_of_last_flush :
    let e : Deflate LzCompressor Inflater := {}
    let payload : Bytes := [0xf2, 0x48, 0xcd, 0xc9, 0xc9, 0x07, 0x04]
    let f : Frame := { opcode := .text, rsv := { rsv1 := true }, payload }
    let message : Bytes := [72, 101, 108, 108, 111]
    Series (1 <<< e.theirBits) [] 0 [false, true] message
        ((payload ++ flushMarker).flatMap Inflater.bitsOf)
      ∧ message.length ≤ e.maxMessageSize ∧ isNext false f ∧ f.fin
      ∧ (e.decode f).2 = .ok (opened f message) := by
  intro e payload f message
  have hflush : Body (1 <<< 15) message 50 []
      (numberBits 2 0 ++ (List.replicate 3 false ++ (numberBits 16 0 ++ (numberBits 16 0xffff
        ++ [])))) :=
    .stored (by decide) (by decide) (by decide)
  have hbody : Body (1 <<< 15) [] 0 message _ :=
    body_fixed (Token.denoteAll_literals message) (Nat.le_refl _)
  have hblocks := Series.block hbody
    (@Series.last _ _ _ _ _ _ _ [] _ hflush (by decide) (by decide +kernel) .nil)
  have hstream : Series (1 <<< e.theirBits) [] 0 [false, true] message
      ((payload ++ flushMarker).flatMap Inflater.bitsOf) := by
    refine (congrArg (Series _ _ _ _ _) ?_).mp hblocks
    decide +kernel
  have hsize : message.length ≤ e.maxMessageSize := by decide
  have hread := decode_of_series (e := e) (f := f) hstream hsize rfl rfl
  exact ⟨hstream, hsize, rfl, rfl, hread.trans (if_neg (by decide))⟩

/-- The message is in a last block, and the empty block behind it is that of the flush.  This is
the form of RFC 7692, section 7.2.3.4, which any receiver has to read. -/
theorem decode_of_last_block :
    let e : Deflate LzCompressor Inflater := {}
    let payload : Bytes := [0xf3, 0x48, 0xcd, 0xc9, 0xc9, 0x07, 0x00, 0x00]
    let f : Frame := { opcode := .text, rsv := { rsv1 := true }, payload }
    let message : Bytes := [72, 101, 108, 108, 111]
    Series (1 <<< e.theirBits) [] 0 [true, false] message
        ((payload ++ flushMarker).flatMap Inflater.bitsOf)
      ∧ (e.decode f).2 = .error .noProgress
      ∧ ¬∀ (e : Deflate LzCompressor Inflater) (f : Frame) (message : Bytes) (lasts : List Bool),
        Series (1 <<< e.theirBits) [] 0 lasts message
            ((f.payload ++ flushMarker).flatMap Inflater.bitsOf) →
          message.length ≤ e.maxMessageSize → isNext false f → f.fin →
          (e.decode f).2 = .ok (opened f message) := by
  intro e payload f message
  have hflush : Series (1 <<< 15) message 56 [false] [] _ :=
    @series_flush _ _ _ (List.replicate 5 false) (by decide) (by decide)
  have hbody : Body (1 <<< 15) [] 0 message _ :=
    body_fixed (Token.denoteAll_literals message) (Nat.le_refl _)
  have hblocks := @Series.last _ _ _ _ _ _ _ (List.replicate 6 false) _ hbody (by decide)
    (by decide +kernel) hflush
  have hstream : Series (1 <<< e.theirBits) [] 0 [true, false] message
      ((payload ++ flushMarker).flatMap Inflater.bitsOf) := by
    refine (congrArg (Series _ _ _ _ _) ?_).mp hblocks
    decide +kernel
  have hsize : message.length ≤ e.maxMessageSize := by decide
  have herror : (e.decode f).2 = .error .noProgress :=
    decode_eq_error_of_series hstream (by decide) hsize rfl rfl
  refine ⟨hstream, herror, fun hall => ?_⟩
  have hread := hall e f message _ hstream hsize rfl rfl
  rw [herror] at hread
  cases hread

end WebSocket.Extension.Deflate
