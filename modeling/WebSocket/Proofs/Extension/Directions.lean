/-
WebSocket/Proofs/Extension/Directions.lean

One extension for messages in both directions.

Design.  Decompressing looks at one half of the extension and changes that half only, and
compressing has the other half (`SameReader`, `SameWriter`).  So calls in one direction come to the
same with or without those in the other direction, however they are interleaved (`decoded_run`,
`encoded_run`), and what becomes of incoming frames can be told from these frames alone.

Between two of them the reader is at some place of a message (`Reading`).  If its first frame is
marked, then the parts so far have been inflated and a decompressor is held; otherwise they have
passed as they are, and none is held.  A next part keeps to that (`Reading.part`).
-/
import WebSocket.Proofs.Extension.MessageSize
import WebSocket.Proofs.Pipeline.Mirror

namespace WebSocket.Extension.Deflate

open Flate
open Pipeline (Travel)

variable {κ δ : Type}

/-! ### The two halves -/

/-- Two extensions that read in the same way. -/
structure SameReader (e e' : Deflate κ δ) : Prop where
  theirBits : e.theirBits = e'.theirBits
  maxMessageSize : e.maxMessageSize = e'.maxMessageSize
  inflated : e.inflated = e'.inflated
  decompressor : e.decompressor = e'.decompressor

/-- Two extensions that write in the same way. -/
structure SameWriter (e e' : Deflate κ δ) : Prop where
  ourBits : e.ourBits = e'.ourBits
  compressor : e.compressor = e'.compressor

section

variable {e e' : Deflate κ δ}

theorem SameReader.decode [Decompressor δ] (h : SameReader e e') (f : Frame) :
    (e.decode f).2 = (e'.decode f).2 ∧ SameReader (e.decode f).1 (e'.decode f).1 := by
  have hfor : e.decompressorFor? f = e'.decompressorFor? f := by
    simp only [decompressorFor?, h.theirBits, h.inflated, h.decompressor]
  unfold Deflate.decode
  rw [hfor, h.maxMessageSize]
  rcases e'.decompressorFor? f with - | ⟨d, n⟩
  · exact ⟨rfl, h⟩
  · dsimp only
    rcases inflate (e'.maxMessageSize - n) d (compressedPart f) with err | ⟨d', payload⟩
    · exact ⟨rfl, h.theirBits, rfl, rfl, rfl⟩
    · exact ⟨rfl, h.theirBits, rfl, rfl, rfl⟩

theorem SameWriter.encode [Compressor κ] (h : SameWriter e e') (f : Frame) :
    (e.encode f).2 = (e'.encode f).2 ∧ SameWriter (e.encode f).1 (e'.encode f).1 := by
  have hfor : e.compressorFor? f = e'.compressorFor? f := by
    simp only [compressorFor?, h.ourBits, h.compressor]
  unfold Deflate.encode
  rw [hfor]
  rcases e'.compressorFor? f with - | c
  · exact ⟨rfl, h⟩
  · dsimp only
    rcases deflate c f.payload with ⟨c', err | flushed⟩
    · exact ⟨rfl, h.ourBits, rfl⟩
    · exact ⟨rfl, h.ourBits, rfl⟩

/-- Writing leaves the reader as it is. -/
theorem sameReader_encode [Compressor κ] (e : Deflate κ δ) (f : Frame) :
    SameReader (e.encode f).1 e := by
  unfold Deflate.encode
  split
  · exact ⟨rfl, rfl, rfl, rfl⟩
  · split <;> exact ⟨rfl, rfl, rfl, rfl⟩

/-- Reading leaves the writer as it is. -/
theorem sameWriter_decode [Decompressor δ] (e : Deflate κ δ) (f : Frame) :
    SameWriter (e.decode f).1 e := by
  unfold Deflate.decode
  split
  · exact ⟨rfl, rfl⟩
  · split <;> exact ⟨rfl, rfl⟩

end

/-! ### Messages as they come in -/

/-- Frames as a peer sends them: a message is begun where none is open, and only then it goes on, up
to its last frame.  Other frames may stand anywhere. -/
def isFragmented : (isOpen : Bool) → List Frame → Bool
  | _, [] => true
  | isOpen, f :: fs =>
    if isPart f then isPartOf isOpen f && isFragmented (!f.fin) fs else isFragmented isOpen fs

/-- The parts of the message that is open behind some frames; `front` are those in front of
them. -/
def openParts (front : List Frame) : List Frame → List Frame
  | [] => front
  | f :: fs =>
    if isPart f then openParts (if f.fin then [] else front ++ [f]) fs else openParts front fs

/-- What belongs to the parts of a message, message by message, the last of them possibly without an
end; `front` belongs to the message that is open. -/
def grouped {α : Type} (frame : α → Frame) (front : List α) : List α → List (List α)
  | [] => [front]
  | a :: as =>
    if isPart (frame a) then
      if (frame a).fin then (front ++ [a]) :: grouped frame [] as
      else grouped frame (front ++ [a]) as
    else grouped frame front as

/-- Whether the first part of a message is marked. -/
def isCompressed (message : List Frame) : Bool :=
  message.head?.any (·.rsv.rsv1)

/-- The parts of a message inflate one after the other, with a window of `2 ^ bits` octets, and to
no more than `size` octets in total. -/
def InflatesWithin (δ : Type) [Decompressor δ] (bits size : Nat) (message : List Frame) : Prop :=
  ∃ shares, ∃ d : δ, InflatesAll (Decompressor.fresh bits) (message.map compressedPart) shares d
    ∧ shares.flatten.length ≤ size

/-- What becomes of the parts of a message, with a window of `2 ^ bits` octets.  Those of a
compressed message are inflated one after the other, and any others stay as they are. -/
def Restored (δ : Type) [Decompressor δ] (bits : Nat) (message : List (Frame × Frame)) : Prop :=
  let parts := message.map Prod.fst
  if isCompressed parts then
    ∃ shares, ∃ d : δ, InflatesAll (Decompressor.fresh bits) (parts.map compressedPart) shares d
      ∧ message.map Prod.snd = List.zipWith opened parts shares
  else ∀ p ∈ message, p.2 = p.1

/-- The messages have all parts, in order, and nothing else. -/
theorem flatten_grouped {α : Type} (frame : α → Frame) (front as : List α) :
    (grouped frame front as).flatten = front ++ as.filter fun a => isPart (frame a) := by
  induction as generalizing front with
  | nil => simp [grouped]
  | cons a as ih =>
    unfold grouped
    split
    · next ha =>
      rw [List.filter_cons, if_pos ha]
      split
      · rw [List.flatten_cons, ih, List.nil_append, List.append_assoc, List.singleton_append]
      · rw [ih, List.append_assoc, List.singleton_append]
    · next ha => rw [List.filter_cons, if_neg ha, ih]

/-- The open message is the front of one of them. -/
theorem exists_mem_grouped {α : Type} (frame : α → Frame) (front as : List α) :
    ∃ m ∈ grouped frame front as, front <+: m := by
  induction as generalizing front with
  | nil => exact ⟨front, List.mem_singleton_self _, List.prefix_rfl⟩
  | cons a as ih =>
    unfold grouped
    split
    · split
      · exact ⟨_, List.mem_cons_self, List.prefix_append _ _⟩
      · obtain ⟨m, hm, hfront⟩ := ih (front ++ [a])
        exact ⟨m, hm, (List.prefix_append _ _).trans hfront⟩
    · exact ih front

theorem exists_mem_grouped_of_isPart {α : Type} (frame : α → Frame) (front : List α) {a : α}
    (ha : isPart (frame a)) (as : List α) :
    ∃ m ∈ grouped frame front (a :: as), front ++ [a] <+: m := by
  rw [grouped, if_pos ha]
  split
  · exact ⟨_, List.mem_cons_self, List.prefix_rfl⟩
  · exact exists_mem_grouped frame _ as

/-- A message ends with its last part. -/
theorem mem_grouped_of_isPart {α : Type} {frame : α → Frame} {front as m : List α} {a : α}
    (ha : isPart (frame a)) : m ∈ grouped frame front (a :: as) ↔ (frame a).fin ∧ m = front ++ [a]
      ∨ m ∈ grouped frame (if (frame a).fin then [] else front ++ [a]) as := by
  rw [grouped, if_pos ha]
  cases (frame a).fin <;> simp

/-- The first part decides. -/
theorem isCompressed_front {front message : List Frame} (hne : front ≠ [])
    (h : front <+: message) : isCompressed front = isCompressed message := by
  obtain ⟨f, front, rfl⟩ := List.exists_cons_of_ne_nil hne
  obtain ⟨back, rfl⟩ := h
  rfl

variable [Decompressor δ]

theorem InflatesWithin.front {bits size : Nat} {front message : List Frame}
    (h : InflatesWithin δ bits size message) (hfront : front <+: message) :
    InflatesWithin δ bits size front := by
  obtain ⟨back, rfl⟩ := hfront
  obtain ⟨shares, d, hall, hsize⟩ := h
  rw [List.map_append] at hall
  obtain ⟨shares₁, shares₂, d₁, rfl, hbefore, -⟩ := hall.of_append
  rw [List.flatten_append, List.length_append] at hsize
  exact ⟨shares₁, d₁, hbefore, by omega⟩

section

variable {bits : Nat} {message : List (Frame × Frame)}

theorem restored_of_isCompressed (h : isCompressed (message.map Prod.fst)) :
    Restored δ bits message ↔ ∃ shares, ∃ d : δ,
      InflatesAll (Decompressor.fresh bits) ((message.map Prod.fst).map compressedPart) shares d
        ∧ message.map Prod.snd = List.zipWith opened (message.map Prod.fst) shares :=
  iff_of_eq (if_pos h)

theorem restored_of_not_isCompressed (h : ¬isCompressed (message.map Prod.fst)) :
    Restored δ bits message ↔ ∀ p ∈ message, p.2 = p.1 :=
  iff_of_eq (if_neg h)

end

/-- What the calls for incoming frames return. -/
def decodeEach (e : Deflate κ δ) : List Frame → List (Except ExtensionError Frame)
  | [] => []
  | f :: fs => (e.decode f).2 :: (e.decode f).1.decodeEach fs

/-! ### One part -/

/-- Between two incoming frames: the parts `front` of the message that is open have come in, and
this is what became of them. -/
structure Reading (e : Deflate κ δ) (front : List (Frame × Frame)) : Prop where
  packed : isCompressed (front.map Prod.fst) → ∃ shares d,
    InflatesAll (Decompressor.fresh e.theirBits) ((front.map Prod.fst).map compressedPart) shares d
      ∧ front.map Prod.snd = List.zipWith opened (front.map Prod.fst) shares
      ∧ e.decompressor = some d ∧ e.inflated = shares.flatten.length
  plain : ¬isCompressed (front.map Prod.fst) → e.decompressor = none ∧ ∀ p ∈ front, p.2 = p.1

theorem reading_nil {e : Deflate κ δ} (h : e.decompressor = none) : Reading e [] :=
  ⟨fun hc => absurd hc Bool.false_ne_true, fun _ => ⟨h, List.forall_mem_nil _⟩⟩

section

variable {e : Deflate κ δ} {front : List (Frame × Frame)} {f : Frame}

theorem Reading.restored (h : Reading e front) : Restored δ e.theirBits front := by
  by_cases hc : isCompressed (front.map Prod.fst)
  · obtain ⟨shares, d, hall, hsnd, -, -⟩ := h.packed hc
    exact (restored_of_isCompressed hc).2 ⟨shares, d, hall, hsnd⟩
  · exact (restored_of_not_isCompressed hc).2 (h.plain hc).2

theorem Reading.isSome_iff (h : Reading e front) :
    e.decompressor.isSome ↔ isCompressed (front.map Prod.fst) := by
  refine ⟨fun hsome => ?_, fun hc => ?_⟩
  · by_contra hc
    rw [(h.plain hc).1] at hsome
    cases hsome
  · obtain ⟨shares, d, -, -, hheld, -⟩ := h.packed hc
    rw [hheld]
    rfl

/-- The decompressor for the next part of a compressed message is the one behind the parts so
far. -/
theorem Reading.exists_decompressorFor? (h : Reading e front)
    (hpart : isPartOf (!front.isEmpty) f) (hc : isCompressed (front.map Prod.fst ++ [f])) :
    ∃ shares d,
      InflatesAll (Decompressor.fresh e.theirBits) ((front.map Prod.fst).map compressedPart) shares d
        ∧ front.map Prod.snd = List.zipWith opened (front.map Prod.fst) shares
        ∧ e.decompressorFor? f = some (d, shares.flatten.length) := by
  rcases front with - | ⟨p, front⟩
  · have hnext : isNext false f := by
      rw [isNext, if_neg Bool.false_ne_true, Bool.and_eq_true]
      exact ⟨hpart, hc⟩
    exact ⟨[], _, .nil _, rfl, decompressorFor?_of_begins hnext⟩
  · obtain ⟨shares, d, hall, hsnd, hheld, hinflated⟩ := h.packed hc
    refine ⟨shares, d, hall, hsnd, ?_⟩
    rw [← hinflated]
    exact decompressorFor?_of_held hpart hheld

/-- Where no decompressor is held, a frame passes as it is, unless it begins a compressed
message. -/
theorem decode_of_none (hnone : e.decompressor = none) (hf : ¬isNext false f) :
    e.decode f = (e, .ok f) := by
  have hbegins : ¬(beginsMessage f && f.rsv.rsv1) := hf
  simp [decode, decompressorFor?, hbegins, hnone]

/-- The parts of a message that is not compressed pass as they are. -/
theorem Reading.decode_of_plain (h : Reading e front) (hpart : isPartOf (!front.isEmpty) f)
    (hc : ¬isCompressed (front.map Prod.fst ++ [f])) :
    e.decode f = (e, .ok f) ∧ e.decompressor = none ∧ ∀ p ∈ front, p.2 = p.1 := by
  rcases front with - | ⟨p, front⟩
  · obtain ⟨hnone, hall⟩ := h.plain Bool.false_ne_true
    have hmark : f.rsv.rsv1 = false := Bool.eq_false_iff.2 hc
    exact ⟨decode_of_none hnone (by simp [isNext, hmark]), hnone, hall⟩
  · obtain ⟨hnone, hall⟩ := h.plain hc
    have hcontinues : f.opcode = .continuation := by simpa [isPartOf] using hpart
    exact ⟨decode_of_none hnone (by simp [isNext, beginsMessage, hcontinues]), hnone, hall⟩

/-- A next part of a compressed message is inflated. -/
theorem Reading.part_of_isCompressed (h : Reading e front) (hpart : isPartOf (!front.isEmpty) f)
    (hc : isCompressed (front.map Prod.fst ++ [f]))
    (hwithin : InflatesWithin δ e.theirBits e.maxMessageSize (front.map Prod.fst ++ [f])) :
    ∃ g, (e.decode f).2 = .ok g ∧ Restored δ e.theirBits (front ++ [(f, g)])
      ∧ Reading (e.decode f).1 (if f.fin then [] else front ++ [(f, g)]) := by
  obtain ⟨shares, d, hfront, hsnd, hfor⟩ := h.exists_decompressorFor? hpart hc
  obtain ⟨shares', d', hmessage, hsize⟩ := hwithin
  -- The message is inflated as far as its parts have come in, and then comes the share of `f`.
  have hmessage' := hmessage
  rw [List.map_append] at hmessage'
  obtain ⟨shares₁, shares₂, d₁, rfl, hbefore, hlast⟩ := hmessage'.of_append
  obtain ⟨rfl, rfl⟩ := hbefore.unique hfront
  cases hlast with
  | @cons _ _ _ _ share _ _ hshare hnone =>
    cases hnone
    simp only [List.flatten_append, List.flatten_singleton, List.length_append] at hsize
    have hdecode := decode_of_inflates hfor (by omega) hshare
    rw [if_pos hsize] at hdecode
    have hfst : (front ++ [(f, opened f share)]).map Prod.fst = front.map Prod.fst ++ [f] := by
      rw [List.map_append]
      rfl
    have hlength : (front.map Prod.fst).length = shares₁.length := by
      rw [hfront.length_eq, List.length_map compressedPart]
    have hsnd' : (front ++ [(f, opened f share)]).map Prod.snd
        = List.zipWith opened (front.map Prod.fst ++ [f]) (shares₁ ++ [share]) := by
      rw [List.map_append, List.zipWith_append hlength, hsnd]
      rfl
    refine ⟨opened f share, by rw [hdecode], ?_, ?_⟩
    · rw [restored_of_isCompressed (hfst ▸ hc), hfst]
      exact ⟨_, d', hmessage, hsnd'⟩
    · rw [hdecode]
      rcases f.fin with - | -
      · rw [if_neg Bool.false_ne_true, if_neg Bool.false_ne_true]
        exact ⟨fun _ => ⟨_, d', hfst ▸ hmessage, hfst ▸ hsnd', rfl, by simp⟩,
          fun hplain => absurd (hfst ▸ hc) hplain⟩
      · exact reading_nil rfl

/-- A next part of any other message passes as it is. -/
theorem Reading.part_of_not_isCompressed (h : Reading e front)
    (hpart : isPartOf (!front.isEmpty) f) (hc : ¬isCompressed (front.map Prod.fst ++ [f])) :
    ∃ g, (e.decode f).2 = .ok g ∧ Restored δ e.theirBits (front ++ [(f, g)])
      ∧ Reading (e.decode f).1 (if f.fin then [] else front ++ [(f, g)]) := by
  obtain ⟨hdecode, hnone, hsame⟩ := h.decode_of_plain hpart hc
  have hfst : (front ++ [(f, f)]).map Prod.fst = front.map Prod.fst ++ [f] := by
    rw [List.map_append]
    rfl
  have hsame' : ∀ p ∈ front ++ [(f, f)], p.2 = p.1 :=
    List.forall_mem_append.2 ⟨hsame, List.forall_mem_singleton.2 rfl⟩
  refine ⟨f, by rw [hdecode], ?_, ?_⟩
  · exact (restored_of_not_isCompressed (hfst ▸ hc)).2 hsame'
  · rw [hdecode]
    rcases f.fin with - | -
    · rw [if_neg Bool.false_ne_true]
      exact ⟨fun hc' => absurd (hfst ▸ hc') hc, fun _ => ⟨hnone, hsame'⟩⟩
    · exact reading_nil hnone

/-- A next part keeps the reader in its place. -/
theorem Reading.part (h : Reading e front) (hpart : isPartOf (!front.isEmpty) f)
    (hall : isCompressed (front.map Prod.fst ++ [f]) →
      InflatesWithin δ e.theirBits e.maxMessageSize (front.map Prod.fst ++ [f])) :
    ∃ g, (e.decode f).2 = .ok g ∧ Restored δ e.theirBits (front ++ [(f, g)])
      ∧ Reading (e.decode f).1 (if f.fin then [] else front ++ [(f, g)]) := by
  by_cases hc : isCompressed (front.map Prod.fst ++ [f])
  · exact h.part_of_isCompressed hpart hc (hall hc)
  · exact h.part_of_not_isCompressed hpart hc

end

/-! ### All incoming frames -/

/-- From any frame on, incoming messages are restored, and a decompressor is held while a compressed
one is open. -/
theorem Reading.decodeEach {e : Deflate κ δ} {front : List (Frame × Frame)} {fs : List Frame}
    (h : Reading e front) (hfs : isFragmented (!front.isEmpty) fs)
    (hall : ∀ m ∈ grouped id (front.map Prod.fst) fs, isCompressed m →
      InflatesWithin δ e.theirBits e.maxMessageSize m) :
    (∃ gs, e.decodeEach fs = gs.map .ok ∧ gs.length = fs.length
      ∧ (∀ p ∈ fs.zip gs, isPart p.1 = false → p.2 = p.1)
      ∧ ∀ m ∈ grouped Prod.fst front (fs.zip gs), Restored δ e.theirBits m)
    ∧ ∀ fs', fs' <+: fs →
      ((e.behind fs').decompressor.isSome ↔ isCompressed (openParts (front.map Prod.fst) fs')) := by
  induction fs generalizing e front with
  | nil =>
    refine ⟨⟨[], rfl, rfl, List.forall_mem_nil _, ?_⟩, fun fs' hprefix => ?_⟩
    · exact fun m hm => List.mem_singleton.1 hm ▸ h.restored
    · obtain rfl := List.prefix_nil.1 hprefix
      exact h.isSome_iff
  | cons f fs ih =>
    rcases hf : isPart f with - | -
    · -- What is no part of a message leaves everything as it is.
      have hdecode := decode_of_not_isPart e hf
      simp only [isFragmented, grouped, id, hf, Bool.false_eq_true, if_false] at hfs hall
      obtain ⟨⟨gs, hgs, hlength, hothers, hmessages⟩, hheld⟩ := ih h hfs hall
      refine ⟨⟨f :: gs, ?_, congrArg Nat.succ hlength, ?_, ?_⟩, fun fs' hprefix => ?_⟩
      · rw [Deflate.decodeEach, hdecode, hgs]
        rfl
      · exact List.forall_mem_cons.2 ⟨fun _ => rfl, hothers⟩
      · rwa [List.zip_cons_cons, grouped, if_neg (Bool.eq_false_iff.1 hf)]
      · rcases List.prefix_cons_iff.1 hprefix with rfl | ⟨back, rfl, hback⟩
        · exact h.isSome_iff
        · rw [openParts, if_neg (Bool.eq_false_iff.1 hf), behind_cons, hdecode]
          exact hheld back hback
    · -- A part belongs to one of the messages, and so do all parts in front of it.
      rw [isFragmented, if_pos hf, Bool.and_eq_true] at hfs
      obtain ⟨hpart, hrest⟩ := hfs
      obtain ⟨m, hm, hfront⟩ := exists_mem_grouped_of_isPart id (front.map Prod.fst) hf fs
      obtain ⟨g, hg, hrestored, hnext⟩ := h.part hpart fun hc =>
        (hall m hm (isCompressed_front (by simp) hfront ▸ hc)).front hfront
      -- Behind its last part no message is open, and the next ones are read from there.
      have hfst : (if f.fin then [] else front ++ [(f, g)]).map Prod.fst
          = if f.fin then [] else front.map Prod.fst ++ [f] := by
        cases f.fin <;> simp
      have hempty : (if f.fin then [] else front ++ [(f, g)]).isEmpty = f.fin := by
        cases f.fin <;> cases front <;> rfl
      obtain ⟨⟨gs, hgs, hlength, hothers, hmessages⟩, hheld⟩ :=
        ih hnext (by rwa [hempty]) fun m hm => by
          rw [hfst] at hm
          rw [theirBits_decode, maxMessageSize_decode]
          exact hall m ((mem_grouped_of_isPart hf).2 (.inr hm))
      refine ⟨⟨g :: gs, ?_, congrArg Nat.succ hlength, ?_, ?_⟩, fun fs' hprefix => ?_⟩
      · rw [Deflate.decodeEach, hg, hgs]
        rfl
      · exact List.forall_mem_cons.2 ⟨fun hother => absurd (hf.symm.trans hother) (by decide),
          hothers⟩
      · intro m hm
        rw [List.zip_cons_cons, mem_grouped_of_isPart hf] at hm
        rcases hm with ⟨-, rfl⟩ | hm
        · exact hrestored
        · exact theirBits_decode e f ▸ hmessages m hm
      · rcases List.prefix_cons_iff.1 hprefix with rfl | ⟨back, rfl, hback⟩
        · exact h.isSome_iff
        · rw [openParts, if_pos hf, behind_cons, ← hfst]
          exact hheld back hback

/-! ### Calls in both directions -/

variable [Compressor κ]

/-- The extension while frames travel in both directions, and what the calls have returned. -/
structure Duplex (κ δ : Type) where
  extension : Deflate κ δ
  decoded : List (Except ExtensionError Frame) := []
  encoded : List (Except ExtensionError Frame) := []

/-- Takes a frame through the extension. -/
def Duplex.step (s : Duplex κ δ) : Travel → Duplex κ δ
  | .inward f =>
    let (extension, r) := s.extension.decode f
    { s with extension, decoded := s.decoded ++ [r] }
  | .outward f =>
    let (extension, r) := s.extension.encode f
    { s with extension, encoded := s.encoded ++ [r] }

/-- Takes one frame after the other. -/
def Duplex.run (s : Duplex κ δ) (travels : List Travel) : Duplex κ δ :=
  travels.foldl step s

/-- What the calls for outgoing frames return. -/
def encodeEach (e : Deflate κ δ) : List Frame → List (Except ExtensionError Frame)
  | [] => []
  | f :: fs => (e.encode f).2 :: (e.encode f).1.encodeEach fs

def isInward : Travel → Bool
  | .inward _ => true
  | .outward _ => false

def incoming : List Travel → List Frame
  | [] => []
  | .inward f :: travels => f :: incoming travels
  | .outward _ :: travels => incoming travels

def outgoing : List Travel → List Frame
  | [] => []
  | .inward _ :: travels => outgoing travels
  | .outward f :: travels => f :: outgoing travels

theorem decoded_run {s : Duplex κ δ} {e : Deflate κ δ} (h : SameReader s.extension e)
    (travels : List Travel) :
    (s.run travels).decoded = s.decoded ++ e.decodeEach (incoming travels)
      ∧ SameReader (s.run travels).extension (e.behind (incoming travels)) := by
  induction travels generalizing s e with
  | nil => exact ⟨(List.append_nil _).symm, h⟩
  | cons t travels ih =>
    cases t with
    | inward f =>
      obtain ⟨hresult, hnext⟩ := h.decode f
      obtain ⟨hrun, hreader⟩ := ih (s := s.step (.inward f)) hnext
      refine ⟨hrun.trans ?_, hreader⟩
      show (s.decoded ++ [(s.extension.decode f).2]) ++ _ = s.decoded ++ ((e.decode f).2 :: _)
      rw [hresult, List.append_assoc, List.singleton_append]
    | outward f =>
      have hsame := sameReader_encode s.extension f
      exact ih (s := s.step (.outward f)) ⟨hsame.theirBits.trans h.theirBits,
        hsame.maxMessageSize.trans h.maxMessageSize, hsame.inflated.trans h.inflated,
        hsame.decompressor.trans h.decompressor⟩

theorem encoded_run {s : Duplex κ δ} {e : Deflate κ δ} (h : SameWriter s.extension e)
    (travels : List Travel) :
    (s.run travels).encoded = s.encoded ++ e.encodeEach (outgoing travels) := by
  induction travels generalizing s e with
  | nil => exact (List.append_nil _).symm
  | cons t travels ih =>
    cases t with
    | inward f =>
      have hsame := sameWriter_decode s.extension f
      exact ih (s := s.step (.inward f))
        ⟨hsame.ourBits.trans h.ourBits, hsame.compressor.trans h.compressor⟩
    | outward f =>
      obtain ⟨hresult, hnext⟩ := h.encode f
      refine (ih (s := s.step (.outward f)) hnext).trans ?_
      show (s.encoded ++ [(s.extension.encode f).2]) ++ _ = s.encoded ++ ((e.encode f).2 :: _)
      rw [hresult, List.append_assoc, List.singleton_append]

theorem incoming_filter (travels : List Travel) :
    incoming (travels.filter isInward) = incoming travels := by
  induction travels with
  | nil => rfl
  | cons t travels ih =>
    cases t with
    | inward f => exact congrArg (f :: ·) ih
    | outward f => exact ih

theorem outgoing_filter (travels : List Travel) :
    outgoing (travels.filter fun t => !isInward t) = outgoing travels := by
  induction travels with
  | nil => rfl
  | cons t travels ih =>
    cases t with
    | inward f => exact ih
    | outward f => exact congrArg (f :: ·) ih

theorem incoming_append (front back : List Travel) :
    incoming (front ++ back) = incoming front ++ incoming back := by
  induction front with
  | nil => rfl
  | cons t front ih =>
    cases t with
    | inward f => exact congrArg (f :: ·) ih
    | outward f => exact ih

/-- **Only compressed messages are decompressed, and the two directions are apart.**  Incoming
frames are messages cut in any way, with other frames anywhere, and the compressed ones among them
inflate.  Frames that go out are any, and both are interleaved in any way.

* Every incoming frame is handed on: what is no part of a message as it is, and so the parts of a
  message that is not compressed, and a part of a compressed one as its share, without the mark.
* A decompressor is held exactly while a compressed message is open.
* Either direction comes to what it comes to without the other one. -/
theorem directions_apart {e : Deflate κ δ} {travels : List Travel} (hnone : e.decompressor = none)
    (htravels : isFragmented false (incoming travels))
    (hall : ∀ m ∈ grouped id [] (incoming travels), isCompressed m →
      InflatesWithin δ e.theirBits e.maxMessageSize m) :
    let s : Duplex κ δ := { extension := e }
    (∃ gs, (s.run travels).decoded = gs.map .ok ∧ gs.length = (incoming travels).length
      ∧ (∀ p ∈ (incoming travels).zip gs, isPart p.1 = false → p.2 = p.1)
      ∧ ∀ m ∈ grouped Prod.fst [] ((incoming travels).zip gs), Restored δ e.theirBits m)
    ∧ (∀ front, front <+: travels → ((s.run front).extension.decompressor.isSome
      ↔ isCompressed (openParts [] (incoming front))))
    ∧ (s.run travels).decoded = (s.run (travels.filter isInward)).decoded
    ∧ (s.run travels).encoded = (s.run (travels.filter fun t => !isInward t)).encoded := by
  intro s
  have hreader : SameReader s.extension e := ⟨rfl, rfl, rfl, rfl⟩
  have hwriter : SameWriter s.extension e := ⟨rfl, rfl⟩
  obtain ⟨hdecode, hheld⟩ := (reading_nil hnone).decodeEach htravels hall
  refine ⟨?_, fun front hfront => ?_, ?_, ?_⟩
  · rw [(decoded_run hreader travels).1]
    exact hdecode
  · obtain ⟨back, rfl⟩ := hfront
    rw [(decoded_run hreader front).2.decompressor]
    exact hheld _ (incoming_append front back ▸ List.prefix_append _ _)
  · rw [(decoded_run hreader travels).1, (decoded_run hreader _).1, incoming_filter]
  · rw [encoded_run hwriter travels, encoded_run hwriter, outgoing_filter]

/-- A compressed message of two parts with a ping between them and a plain message behind it, while
a message of two parts goes out. -/
theorem directions_apart_of_two_messages :
    let e : Deflate LzCompressor Inflater := {}
    let a : Frame :=
      { opcode := .text, fin := false, rsv := { rsv1 := true }
        payload := [242, 72, 5, 0, 0, 0, 255, 255] }
    let b : Frame := { opcode := .continuation, payload := [202, 201, 1, 0] }
    let travels : List Travel :=
      [.inward a, .outward { opcode := .text, fin := false, payload := [72] },
       .inward (.single .ping [1]), .outward { opcode := .continuation, payload := [105] },
       .inward b, .inward (.single .text [33])]
    let s : Duplex LzCompressor Inflater := { extension := e }
    e.decompressor = none ∧ isFragmented false (incoming travels)
      ∧ (∀ m ∈ grouped id [] (incoming travels), isCompressed m →
        InflatesWithin Inflater e.theirBits e.maxMessageSize m)
      ∧ (s.run travels).decoded = [.ok (opened a [72, 101]), .ok (.single .ping [1]),
        .ok (opened b [108, 108]), .ok (.single .text [33])]
      ∧ (∀ front, front <+: travels → ((s.run front).extension.decompressor.isSome
        ↔ isCompressed (openParts [] (incoming front))))
      ∧ (s.run travels).encoded = (s.run (travels.filter fun t => !isInward t)).encoded := by
  intro e a b travels s
  let parts : List Frame := [{ opcode := .text, fin := false, payload := [72, 101] },
    { opcode := .continuation, payload := [108, 108] }]
  -- The message is what a compressor writes, so it is known what it inflates to.
  have hparts : isWellFormed false parts := rfl
  have hmessage : isMessage false [a, b] := rfl
  obtain ⟨sent, hsent, hdecode⟩ :=
    restores_of_lzCompressor e e hparts (Nat.le_refl 15) (Nat.le_refl 15) (by decide)
  obtain rfl : [a, b] = sent := Except.ok.inj (Eq.trans (by decide +kernel) hsent)
  obtain ⟨shares, d, hinflates, hshares, -⟩ := exists_inflatesAll_of_decodeAll hmessage
    (fun f hf => decompressorFor?_of_begins hf) (Nat.zero_le _) hdecode
  obtain rfl : [[72, 101], [108, 108]] = shares := hshares
  have hfragmented : isFragmented false (incoming travels) := rfl
  have hall : ∀ m ∈ grouped id [] (incoming travels), isCompressed m →
      InflatesWithin Inflater e.theirBits e.maxMessageSize m := by
    intro m hm hc
    have hm : m ∈ [[a, b], [.single .text [33]], []] := hm
    simp only [List.mem_cons, List.not_mem_nil, or_false] at hm
    rcases hm with rfl | rfl | rfl
    · exact ⟨_, d, hinflates, by decide⟩
    · cases hc
    · cases hc
  obtain ⟨⟨gs, hgs, hlength, hothers, hmessages⟩, hheld, -, hencoded⟩ :=
    directions_apart (e := e) rfl hfragmented hall
  refine ⟨rfl, hfragmented, hall, ?_, hheld, hencoded⟩
  rw [hgs]
  obtain ⟨g₁, g₂, g₃, g₄, rfl⟩ := List.length_eq_four.1 hlength
  obtain rfl : g₂ = .single .ping [1] :=
    hothers (_, g₂) (List.mem_cons_of_mem _ List.mem_cons_self) rfl
  have hcompressed : Restored Inflater 15 [(a, g₁), (b, g₃)] := hmessages _ List.mem_cons_self
  have hplain : Restored Inflater 15 [(.single .text [33], g₄)] :=
    hmessages _ (List.mem_cons_of_mem _ List.mem_cons_self)
  obtain ⟨shares, d', hinflates', hsnd⟩ := (restored_of_isCompressed rfl).1 hcompressed
  obtain ⟨rfl, -⟩ := hinflates.unique hinflates'
  obtain ⟨rfl, rfl⟩ : g₁ = opened a [72, 101] ∧ g₃ = opened b [108, 108] := by simpa using hsnd
  obtain rfl : g₄ = .single .text [33] :=
    (restored_of_not_isCompressed (by exact Bool.false_ne_true)).1 hplain _ List.mem_cons_self
  rfl

end WebSocket.Extension.Deflate
