/-
WebSocket/Proofs/Extension/MessageSize.lean

The greatest length of a message when it is decompressed.

Design.  Of a compressed message `n` octets have been handed on so far, and a decompressor is held
for its next part.  Where that part inflates to its share, it is handed on or refused, and only the
lengths decide on that (`decode_of_inflates`).  So a message is counted part by part, with any other
frames in between, whatever came in front of it.
-/
import WebSocket.Proofs.Extension.Fragments
import WebSocket.Proofs.Flate.Limit
import WebSocket.Proofs.Parts

namespace WebSocket.Extension.Deflate

open Flate

variable {κ δ : Type} [Decompressor δ]

/-! ### One message -/

/-- The frames of one compressed message, as far as they are there: it goes on up to its last part
at most, and no other one is begun meanwhile. -/
def isMessage : (begun : Bool) → List Frame → Bool
  | begun, [] => begun
  | begun, f :: fs =>
    if isNext begun f then if f.fin then fs.isEmpty else isMessage true fs
    else begun && !isNext false f && isMessage true fs

/-- Whether a frame is the next part of a message, compressed or not. -/
def isPartOf (begun : Bool) (f : Frame) : Bool :=
  if begun then f.opcode = .continuation else beginsMessage f

/-- The parts of a message: the frame that begins it, unless it has begun, and those that go on with
it. -/
def partsFrom : (begun : Bool) → List Frame → List Frame
  | _, [] => []
  | begun, f :: fs =>
    if isPartOf begun f then f :: partsFrom true fs else partsFrom begun fs

theorem isPartOf_of_isNext {begun : Bool} {f : Frame} (h : isNext begun f) : isPartOf begun f := by
  cases begun with
  | true => exact h
  | false => exact (Bool.and_eq_true _ _ ▸ h).1

theorem partsFrom_cons_of_isNext {begun : Bool} {f : Frame} (h : isNext begun f)
    (fs : List Frame) : partsFrom begun (f :: fs) = f :: partsFrom true fs :=
  if_pos (isPartOf_of_isNext h)

/-- A part that was handed on is a part still. -/
theorem partsFrom_cons_opened {begun : Bool} {f : Frame} (h : isNext begun f) (share : Bytes)
    (gs : List Frame) :
    partsFrom begun (opened f share :: gs) = opened f share :: partsFrom true gs :=
  if_pos (isPartOf_of_isNext h)

theorem partsFrom_cons_of_not_isNext {f : Frame} (h : ¬isNext true f) (fs : List Frame) :
    partsFrom true (f :: fs) = partsFrom true fs :=
  if_neg h

/-! ### One frame -/

section

variable {e : Deflate κ δ} {f g : Frame} {d d' : δ} {n : Nat} {share : Bytes}

/-- What is no part of a compressed message passes as it is. -/
theorem decode_of_not_isNext (hcontinues : ¬isNext true f) (hbegins : ¬isNext false f) :
    e.decode f = (e, .ok f) := by
  have hcontinues : ¬f.opcode = .continuation := by simpa [isNext] using hcontinues
  have hbegins : ¬(beginsMessage f && f.rsv.rsv1) := hbegins
  simp [decode, decompressorFor?, hcontinues, hbegins]

/-- A part of a message is handed on if the message is not too long with it. -/
theorem decode_of_inflates (hd : e.decompressorFor? f = some (d, n)) (hn : n ≤ e.maxMessageSize)
    (hi : Inflates d (compressedPart f) share d') :
    e.decode f = if n + share.length ≤ e.maxMessageSize then
        ({ e with decompressor := if f.fin then none else some d', inflated := n + share.length },
          .ok (opened f share))
      else ({ e with decompressor := none, inflated := n },
        .error (.messageTooLarge (e.maxMessageSize - n))) := by
  have hfits : share.length ≤ e.maxMessageSize - n ↔ n + share.length ≤ e.maxMessageSize := by
    omega
  simp only [decode, hd, hi.inflate_eq, hfits]
  split_ifs <;> rfl

/-- With a part that is handed on, a decompressor is held for the next one. -/
theorem handed_of_inflates (hd : e.decompressorFor? f = some (d, n)) (hn : n ≤ e.maxMessageSize)
    (hi : Inflates d (compressedPart f) share d') (hle : n + share.length ≤ e.maxMessageSize) :
    (e.decode f).2 = .ok (opened f share) ∧ (f.fin = false → ∀ g, isNext true g →
      (e.decode f).1.decompressorFor? g = some (d', n + share.length)) := by
  rw [decode_of_inflates hd hn hi, if_pos hle]
  refine ⟨rfl, fun hfin g hg => decompressorFor?_of_held hg ?_⟩
  rw [hfin, if_neg Bool.false_ne_true]

theorem exists_inflates_of_decode (hd : e.decompressorFor? f = some (d, n))
    (h : (e.decode f).2 = .ok g) : ∃ share d', Inflates d (compressedPart f) share d' := by
  rcases hi : inflate (e.maxMessageSize - n) d (compressedPart f) with err | ⟨d', share⟩
  · simp [decode, hd, hi] at h
  · exact ⟨share, d', _, hi⟩

end

/-! ### Any number of frames -/

/-- The extension behind some frames. -/
def behind (e : Deflate κ δ) (fs : List Frame) : Deflate κ δ :=
  fs.foldl (fun e f => (e.decode f).1) e

theorem behind_cons (e : Deflate κ δ) (f : Frame) (fs : List Frame) :
    e.behind (f :: fs) = (e.decode f).1.behind fs :=
  rfl

@[simp] theorem theirBits_decode (e : Deflate κ δ) (f : Frame) :
    (e.decode f).1.theirBits = e.theirBits := by
  unfold decode
  split
  · rfl
  · split <;> rfl

@[simp] theorem theirBits_behind (e : Deflate κ δ) (fs : List Frame) :
    (e.behind fs).theirBits = e.theirBits := by
  induction fs generalizing e with
  | nil => rfl
  | cons f fs ih => exact (ih _).trans (theirBits_decode e f)

@[simp] theorem maxMessageSize_behind (e : Deflate κ δ) (fs : List Frame) :
    (e.behind fs).maxMessageSize = e.maxMessageSize := by
  induction fs generalizing e with
  | nil => rfl
  | cons f fs ih => exact (ih _).trans (maxMessageSize_decode e f)

theorem decodeAll_cons_eq_ok {e : Deflate κ δ} {f : Frame} {fs gs : List Frame} :
    e.decodeAll (f :: fs) = .ok gs
      ↔ ∃ g gs', (e.decode f).2 = .ok g ∧ (e.decode f).1.decodeAll fs = .ok gs' ∧ gs = g :: gs' := by
  rw [decodeAll, bind_eq_ok]
  refine exists_congr fun g => ?_
  rw [bind_eq_ok]
  constructor
  · rintro ⟨hg, gs', hgs', h⟩
    exact ⟨gs', hg, hgs', (Except.ok.inj h).symm⟩
  · rintro ⟨gs', hg, hgs', rfl⟩
    exact ⟨hg, gs', hgs', rfl⟩

theorem decodeAll_cons_of_ok {e : Deflate κ δ} {f g : Frame} (h : (e.decode f).2 = .ok g)
    (fs : List Frame) : e.decodeAll (f :: fs) = ((e.decode f).1.decodeAll fs).map (g :: ·) := by
  rw [decodeAll, h]
  rfl

theorem decodeAll_append {e : Deflate κ δ} {front done : List Frame}
    (h : e.decodeAll front = .ok done) (back : List Frame) :
    e.decodeAll (front ++ back) = ((e.behind front).decodeAll back).map (done ++ ·) := by
  induction front generalizing e done with
  | nil =>
    cases h
    show e.decodeAll back = (e.decodeAll back).map ([] ++ ·)
    rcases e.decodeAll back with err | gs <;> rfl
  | cons f front ih =>
    obtain ⟨g, gs, hg, hgs, rfl⟩ := decodeAll_cons_eq_ok.1 h
    rw [List.cons_append, decodeAll_cons_of_ok hg, ih hgs, behind_cons]
    rcases ((e.decode f).1.behind front).decodeAll back with err | gs' <;> rfl

/-! ### Counting -/

section

variable {begun : Bool} {e : Deflate κ δ} {d d' : δ} {n : Nat} {f : Frame} {fs gs : List Frame}
  {shares : List Bytes}

/-- A message goes on with its next part, which may be the last one, or with a frame that is no part
of a compressed message. -/
theorem isMessage_cons (h : isMessage begun (f :: fs)) :
    isNext begun f ∧ (f.fin ∧ fs = [] ∨ f.fin = false ∧ isMessage true fs)
      ∨ begun = true ∧ ¬isNext true f ∧ ¬isNext false f ∧ isMessage true fs := by
  unfold isMessage at h
  split_ifs at h with hf hfin
  · exact .inl ⟨hf, .inl ⟨hfin, List.isEmpty_iff.1 h⟩⟩
  · exact .inl ⟨hf, .inr ⟨Bool.eq_false_iff.2 hfin, h⟩⟩
  · simp only [Bool.and_eq_true, Bool.not_eq_true'] at h
    obtain ⟨⟨rfl, hbegins⟩, hrest⟩ := h
    exact .inr ⟨rfl, hf, Bool.eq_false_iff.1 hbegins, hrest⟩

/-- What is handed on of a message is what its parts inflate to, and not too long. -/
theorem exists_inflatesAll_of_decodeAll (hfs : isMessage begun fs)
    (hd : ∀ f, isNext begun f → e.decompressorFor? f = some (d, n)) (hn : n ≤ e.maxMessageSize)
    (h : e.decodeAll fs = .ok gs) :
    ∃ shares d', InflatesAll d ((partsFrom begun fs).map compressedPart) shares d'
      ∧ (partsFrom begun gs).map Frame.payload = shares
      ∧ n + shares.flatten.length ≤ e.maxMessageSize := by
  induction fs generalizing begun e d n gs with
  | nil =>
    cases h
    exact ⟨[], d, .nil d, rfl, hn⟩
  | cons f fs ih =>
    obtain ⟨g, gs, hg, hgs, rfl⟩ := decodeAll_cons_eq_ok.1 h
    rcases isMessage_cons hfs with ⟨hf, hrest⟩ | ⟨rfl, hcontinues, hbegins, hrest⟩
    · -- It was handed on, so it inflates, and what is over the greatest length is refused.
      obtain ⟨share, d₁, hshare⟩ := exists_inflates_of_decode (hd f hf) hg
      by_cases hle : n + share.length ≤ e.maxMessageSize
      · obtain ⟨hok, hnext⟩ := handed_of_inflates (hd f hf) hn hshare hle
        obtain rfl : opened f share = g := Except.ok.inj (hok.symm.trans hg)
        rw [partsFrom_cons_of_isNext hf, partsFrom_cons_opened hf]
        rcases hrest with ⟨hfin, rfl⟩ | ⟨hfin, hrest⟩
        · cases hgs
          exact ⟨[share], d₁, .cons hshare (.nil d₁), rfl, by simpa using hle⟩
        · obtain ⟨shares, d', hall, hpayloads, hsize⟩ :=
            ih hrest (hnext hfin) (by rwa [maxMessageSize_decode]) hgs
          rw [maxMessageSize_decode] at hsize
          refine ⟨share :: shares, d', .cons hshare hall, by rw [List.map_cons, hpayloads]; rfl, ?_⟩
          rw [List.flatten_cons, List.length_append]
          omega
      · rw [decode_of_inflates (hd f hf) hn hshare, if_neg hle] at hg
        cases hg
    · have hdecode := decode_of_not_isNext (e := e) hcontinues hbegins
      rw [hdecode] at hg hgs
      cases hg
      rw [partsFrom_cons_of_not_isNext hcontinues, partsFrom_cons_of_not_isNext hcontinues]
      exact ih hrest hd hn hgs

/-- A message that is not too long is handed on. -/
theorem exists_decodeAll_of_inflatesAll (hfs : isMessage begun fs)
    (hd : ∀ f, isNext begun f → e.decompressorFor? f = some (d, n))
    (hall : InflatesAll d ((partsFrom begun fs).map compressedPart) shares d')
    (hsize : n + shares.flatten.length ≤ e.maxMessageSize) :
    ∃ gs, e.decodeAll fs = .ok gs ∧ (partsFrom begun gs).map Frame.payload = shares := by
  induction fs generalizing begun e d n shares with
  | nil =>
    cases hall
    exact ⟨[], rfl, rfl⟩
  | cons f fs ih =>
    rcases isMessage_cons hfs with ⟨hf, hrest⟩ | ⟨rfl, hcontinues, hbegins, hrest⟩
    · rw [partsFrom_cons_of_isNext hf, List.map_cons] at hall
      cases hall with
      | @cons _ d₁ _ _ share _ shares hshare hall =>
        rw [List.flatten_cons, List.length_append] at hsize
        obtain ⟨hg, hnext⟩ := handed_of_inflates (hd f hf) (by omega) hshare (by omega)
        rcases hrest with ⟨hfin, rfl⟩ | ⟨hfin, hrest⟩
        · cases hall
          refine ⟨[opened f share], by rw [decodeAll_cons_of_ok hg]; rfl, ?_⟩
          rw [partsFrom_cons_opened hf]
          rfl
        · have hsize' : n + share.length + shares.flatten.length ≤ e.maxMessageSize := by omega
          obtain ⟨gs, hgs, hpayloads⟩ :=
            ih hrest (hnext hfin) hall (by rwa [maxMessageSize_decode])
          refine ⟨opened f share :: gs, by rw [decodeAll_cons_of_ok hg, hgs]; rfl, ?_⟩
          rw [partsFrom_cons_opened hf, List.map_cons, hpayloads]
          rfl
    · rw [partsFrom_cons_of_not_isNext hcontinues] at hall
      have hdecode := decode_of_not_isNext (e := e) hcontinues hbegins
      obtain ⟨gs, hgs, hpayloads⟩ := ih hrest hd hall hsize
      refine ⟨f :: gs, by rw [decodeAll_cons_of_ok (by rw [hdecode]), hdecode, hgs]; rfl, ?_⟩
      rw [partsFrom_cons_of_not_isNext hcontinues, hpayloads]

/-- A message that is too long is handed on up to the part with which it would be so. -/
theorem exists_error_of_inflatesAll (hfs : isMessage begun fs)
    (hd : ∀ f, isNext begun f → e.decompressorFor? f = some (d, n)) (hn : n ≤ e.maxMessageSize)
    (hall : InflatesAll d ((partsFrom begun fs).map compressedPart) shares d')
    (hsize : e.maxMessageSize < n + shares.flatten.length) :
    ∃ before f after gs share, fs = before ++ f :: after ∧ e.decodeAll before = .ok gs
      ∧ (partsFrom begun gs).map Frame.payload ++ [share] <+: shares
      ∧ let total := n + ((partsFrom begun gs).map Frame.payload).flatten.length
        total ≤ e.maxMessageSize ∧ e.maxMessageSize < total + share.length
        ∧ e.decodeAll (before ++ [f]) = .error (.messageTooLarge (e.maxMessageSize - total)) := by
  induction fs generalizing begun e d n shares with
  | nil =>
    cases hall
    exact absurd hn (Nat.not_le.2 hsize)
  | cons f fs ih =>
    rcases isMessage_cons hfs with ⟨hf, hrest⟩ | ⟨rfl, hcontinues, hbegins, hrest⟩
    · rw [partsFrom_cons_of_isNext hf, List.map_cons] at hall
      cases hall with
      | @cons _ d₁ _ _ share _ shares hshare hall =>
        rw [List.flatten_cons, List.length_append] at hsize
        by_cases hle : n + share.length ≤ e.maxMessageSize
        · obtain ⟨hg, hnext⟩ := handed_of_inflates (hd f hf) hn hshare hle
          rcases hrest with ⟨hfin, rfl⟩ | ⟨hfin, hrest⟩
          · cases hall
            exact absurd hle (by simpa using hsize)
          · have hsize' : e.maxMessageSize < n + share.length + shares.flatten.length := by omega
            obtain ⟨before, last, after, gs, excess, rfl, hgs, hshares, htotal, hover, herror⟩ :=
              ih hrest (hnext hfin) (by rwa [maxMessageSize_decode]) hall
                (by rwa [maxMessageSize_decode])
            rw [maxMessageSize_decode] at htotal hover herror
            refine ⟨f :: before, last, after, opened f share :: gs, excess, rfl,
              by rw [decodeAll_cons_of_ok hg, hgs]; rfl, ?_⟩
            rw [partsFrom_cons_opened hf, List.map_cons, List.flatten_cons, List.length_append,
              ← Nat.add_assoc]
            refine ⟨(List.prefix_cons_inj share).2 hshares, htotal, hover, ?_⟩
            rw [List.cons_append, decodeAll_cons_of_ok hg, herror]
            rfl
        · -- This is the part that is too much.
          refine ⟨[], f, fs, [], share, rfl, rfl, List.prefix_append [share] _, hn,
            Nat.not_le.1 hle, ?_⟩
          rw [List.nil_append, decodeAll, decode_of_inflates (hd f hf) hn hshare, if_neg hle]
          rfl
    · rw [partsFrom_cons_of_not_isNext hcontinues] at hall
      have hdecode := decode_of_not_isNext (e := e) hcontinues hbegins
      have hg : (e.decode f).2 = .ok f := by rw [hdecode]
      obtain ⟨before, last, after, gs, excess, rfl, hgs, hshares, htotal, hover, herror⟩ :=
        ih hrest hd hn hall hsize
      refine ⟨f :: before, last, after, f :: gs, excess, rfl,
        by rw [decodeAll_cons_of_ok hg, hdecode, hgs]; rfl, ?_⟩
      rw [partsFrom_cons_of_not_isNext hcontinues]
      refine ⟨hshares, htotal, hover, ?_⟩
      rw [List.cons_append, decodeAll_cons_of_ok hg, hdecode, herror]
      rfl

end

/-! ### Messages behind other frames -/

/-- **The greatest length of a message holds exactly.**  Whatever frames came before, and behind
them the frames of a compressed message, cut in any way, with any other frames in between, as far as
they are there.

* If they are all handed on, then the payloads of the parts are no longer than the greatest length
  in total.
* Let the parts inflate to their shares, one after the other, with a new decompressor.  If that is
  no more in total, then all of them are handed on, each part with its share.  Otherwise the frames
  are handed on up to the first part with whose share it would be more, and that part is refused for
  its size. -/
theorem decodeAll_message (e : Deflate κ δ) {front done message : List Frame}
    (hfront : e.decodeAll front = .ok done) (hmessage : isMessage false message) :
    (∀ gs, e.decodeAll (front ++ message) = .ok (done ++ gs) →
      ((partsFrom false gs).map Frame.payload).flatten.length ≤ e.maxMessageSize)
    ∧ ∀ shares (d' : δ), InflatesAll (Decompressor.fresh e.theirBits)
        ((partsFrom false message).map compressedPart) shares d' →
      (shares.flatten.length ≤ e.maxMessageSize →
        ∃ gs, e.decodeAll (front ++ message) = .ok (done ++ gs)
          ∧ (partsFrom false gs).map Frame.payload = shares)
      ∧ (e.maxMessageSize < shares.flatten.length →
        ∃ before f after gs share, message = before ++ f :: after
          ∧ e.decodeAll (front ++ before) = .ok (done ++ gs)
          ∧ (partsFrom false gs).map Frame.payload ++ [share] <+: shares
          ∧ let total := ((partsFrom false gs).map Frame.payload).flatten.length
            total ≤ e.maxMessageSize ∧ e.maxMessageSize < total + share.length
            ∧ e.decodeAll (front ++ (before ++ [f]))
              = .error (.messageTooLarge (e.maxMessageSize - total))) := by
  have hd (f : Frame) (hf : isNext false f) :
      (e.behind front).decompressorFor? f = some (Decompressor.fresh e.theirBits, 0) := by
    rw [decompressorFor?_of_begins hf, theirBits_behind]
  have hmax := maxMessageSize_behind e front
  have hzero : 0 ≤ (e.behind front).maxMessageSize := Nat.zero_le _
  refine ⟨fun gs hgs => ?_, fun shares d' hall => ⟨fun hsize => ?_, fun hsize => ?_⟩⟩
  · rw [decodeAll_append hfront] at hgs
    rcases hmine : (e.behind front).decodeAll message with err | gs'
    · rw [hmine] at hgs
      cases hgs
    · rw [hmine] at hgs
      obtain rfl : gs' = gs := List.append_cancel_left (Except.ok.inj hgs)
      obtain ⟨shares, d', -, rfl, hsize⟩ :=
        exists_inflatesAll_of_decodeAll hmessage hd hzero hmine
      rwa [Nat.zero_add, hmax] at hsize
  · obtain ⟨gs, hgs, hshares⟩ := exists_decodeAll_of_inflatesAll hmessage hd hall
      (by rw [Nat.zero_add, hmax]; exact hsize)
    exact ⟨gs, by rw [decodeAll_append hfront, hgs]; rfl, hshares⟩
  · obtain ⟨before, f, after, gs, share, hfs, hgs, hshares, htotal, hover, herror⟩ :=
      exists_error_of_inflatesAll hmessage hd hzero hall (by rw [Nat.zero_add, hmax]; exact hsize)
    rw [Nat.zero_add, hmax] at htotal hover herror
    refine ⟨before, f, after, gs, share, hfs, by rw [decodeAll_append hfront, hgs]; rfl, hshares,
      htotal, hover, ?_⟩
    rw [decodeAll_append hfront, herror]
    rfl

/-- A message of four octets in two parts, behind another message.  It is handed on where four
octets are allowed, and its last part is refused where only three are. -/
theorem decodeAll_message_of_two_parts :
    let front : List Frame :=
      [{ opcode := .text, rsv := { rsv1 := true }, payload := [242, 200, 4, 0] }]
    let message : List Frame :=
      [{ opcode := .text, fin := false, rsv := { rsv1 := true }
         payload := [242, 72, 5, 0, 0, 0, 255, 255] },
       .single .ping [1], { opcode := .continuation, payload := [202, 201, 1, 0] }]
    let e (size : Nat) : Deflate LzCompressor Inflater := { maxMessageSize := size }
    isMessage false message
      ∧ (∃ gs, (e 4).decodeAll (front ++ message) = .ok ([.single .text [72, 105]] ++ gs)
        ∧ (partsFrom false gs).map Frame.payload = [[72, 101], [108, 108]])
      ∧ ∃ before f after, message = before ++ f :: after
        ∧ (e 3).decodeAll (front ++ (before ++ [f])) = .error (.messageTooLarge 1) := by
  intro front message e
  let word : Frame := .single .text [72, 105]
  let parts : List Frame := [{ opcode := .text, fin := false, payload := [72, 101] },
    .single .ping [1], { opcode := .continuation, payload := [108, 108] }]
  have hmessage : isMessage false message := rfl
  -- Both messages are what a compressor writes, so it is known what becomes of them.
  have hback (size : Nat) (fs : List Frame) {sent : List Frame} (hfs : isWellFormed false fs)
      (hsize : ∀ m ∈ messages [] fs, m.flatten.length ≤ size)
      (hsent : (e size).encodeAll fs = .ok sent) : (e size).decodeAll sent = .ok fs := by
    obtain ⟨gs, hgs, hdecode⟩ :=
      restores_of_lzCompressor (e size) (e size) hfs (Nat.le_refl 15) (Nat.le_refl 15) hsize
    rw [hsent] at hgs
    cases hgs
    exact hdecode
  have hfour : (e 4).decodeAll front = .ok [word] :=
    hback 4 [word] rfl (by decide) (by decide +kernel)
  have hthree : (e 3).decodeAll front = .ok [word] :=
    hback 3 [word] rfl (by decide) (by decide +kernel)
  obtain ⟨shares, d', hall, hshares, -⟩ := exists_inflatesAll_of_decodeAll hmessage
    (fun f hf => decompressorFor?_of_begins hf) (Nat.zero_le 4)
    (hback 4 parts rfl (by decide) (by decide +kernel))
  obtain rfl : [[72, 101], [108, 108]] = shares := hshares
  obtain ⟨-, hwithin⟩ := decodeAll_message (e 4) hfour hmessage
  obtain ⟨-, hbeyond⟩ := decodeAll_message (e 3) hthree hmessage
  refine ⟨hmessage, (hwithin _ d' hall).1 (by decide), ?_⟩
  obtain ⟨before, f, after, gs, share, hsplit, -, hprefix, htotal, hover, herror⟩ :=
    (hbeyond _ d' hall).2 (by decide)
  refine ⟨before, f, after, hsplit, ?_⟩
  rw [herror]
  -- With nothing or with both parts handed on, there would be no share that is too much.
  generalize (partsFrom false gs).map Frame.payload = handed at hprefix htotal hover ⊢
  rcases handed with - | ⟨first, - | ⟨second, handed⟩⟩
  · obtain ⟨rfl, -⟩ := List.cons_prefix_cons.1 hprefix
    exact absurd hover (by decide)
  · obtain ⟨rfl, -⟩ := List.cons_prefix_cons.1 hprefix
    rfl
  · have hlength := hprefix.length_le
    simp at hlength

end WebSocket.Extension.Deflate
