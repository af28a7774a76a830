/-
WebSocket/Proofs/Frame/Pieces.lean

Frames out of a stream that arrives in pieces.

`Drained.feed` lets one more piece arrive: it joins the octets that are left, and the
decoder is called until it waits or fails.  What has come of a stream so far counts as one
with what comes of the piece, the first error included.  From `decode_append` it follows
that two pieces come to the same as both at once (`feed_feed`), also behind an error, where
nothing is taken from the stream any more (`decode_of_failed`).  So the cuts make no
difference (`foldl_feed`), wherever they fall in a header, a length, a mask or a payload.
-/
import Mathlib.Data.List.Induction
import WebSocket.Proofs.Frame.Resumption
import WebSocket.Proofs.Frame.RoundTrip

namespace WebSocket.Decoder

/-! ### The exits of reading -/

theorem drain_of_wait {d : Decoder} {input : Bytes} (h : (d.decode input).result = .ok none) :
    d.drain input = ⟨(d.decode input).decoder, (d.decode input).rest, [], none⟩ := by
  rw [drain]
  split
  · next hg => rw [h] at hg; cases hg
  · rfl
  · next hg => rw [h] at hg; cases hg

/-- What holds where a decoder waits or fails, and carries over from what is behind a
frame, holds of all reading. -/
theorem drain_induction {motive : Decoder → Bytes → Prop}
    (wait : ∀ d input, (d.decode input).result = .ok none → motive d input)
    (error : ∀ d input e, (d.decode input).result = .error e → motive d input)
    (frame : ∀ d input f, (d.decode input).result = .ok (some f) →
      motive (d.decode input).decoder (d.decode input).rest → motive d input)
    (d : Decoder) (input : Bytes) : motive d input := by
  induction d, input using drain.induct with
  | case1 d input f hf ih => exact frame d input f hf ih
  | case2 d input hd => exact wait d input hd
  | case3 d input e hd => exact error d input e hd

/-- Calls that come to the same are the start of the same reading. -/
theorem drain_eq_of_decode_eq {d d' : Decoder} {input input' : Bytes}
    (h : d.decode input = d'.decode input') : d.drain input = d'.drain input' := by
  rcases hr : (d'.decode input').result with e | - | f
  · rw [drain_of_error hr, drain_of_error (e := e) (by rw [h, hr]), h]
  · rw [drain_of_wait hr, drain_of_wait (by rw [h, hr]), h]
  · rw [drain_of_frame hr, drain_of_frame (f := f) (by rw [h, hr]), h]

/-! ### What is taken from the stream -/

theorem rest_drain (d : Decoder) (input : Bytes) : (d.drain input).rest <:+ input := by
  induction d, input using drain_induction with
  | wait d input h =>
    rw [drain_of_wait h]
    exact rest_decode d input
  | error d input e h =>
    rw [drain_of_error h]
    exact rest_decode d input
  | frame d input f h ih =>
    rw [drain_of_frame h]
    exact ih.trans (rest_decode d input)

/-! ### Behind an error -/

/-- A decoder that has failed takes nothing and stays as it is. -/
theorem decode_of_failed {d : Decoder} (hd : d.stage = .failed) (input : Bytes) :
    d.decode input = ⟨d, input, .error .illegalState⟩ := by
  obtain ⟨inUse, limit, stage⟩ := d
  subst hd
  rfl

theorem drain_of_failed {d : Decoder} (hd : d.stage = .failed) (input : Bytes) :
    d.drain input = ⟨d, input, [], some .illegalState⟩ := by
  have h := decode_of_failed hd input
  rw [drain_of_error (e := .illegalState) (by rw [h]), h]

theorem failed_drain {d : Decoder} {input : Bytes} {e : FrameError}
    (h : (d.drain input).error = some e) : (d.drain input).decoder.stage = .failed := by
  induction d, input using drain_induction with
  | wait d input hd =>
    rw [drain_of_wait hd] at h
    cases h
  | error d input e' hd =>
    rw [drain_of_error hd]
    exact failed_decode hd
  | frame d input f hd ih =>
    rw [drain_of_frame hd] at h ⊢
    exact ih h

/-! ### One more piece -/

/-- What has come of a stream when one more piece of it arrives.  The first error counts. -/
def Drained.feed (r : Drained) (piece : Bytes) : Drained :=
  let next := r.decoder.drain (r.rest ++ piece)
  { next with frames := r.frames ++ next.frames, error := r.error.or next.error }

/-- The first error stays. -/
theorem error_feed {r : Drained} {e : FrameError} (h : r.error = some e) (piece : Bytes) :
    (r.feed piece).error = some e := by
  simp [Drained.feed, h]

/-- What comes of two parts at once is what comes of the first when the second arrives. -/
theorem drain_append (d : Decoder) (front back : Bytes) :
    d.drain (front ++ back) = (d.drain front).feed back := by
  induction d, front using drain_induction with
  | wait d front h =>
    -- The decoder goes on with what it has kept as if both parts had come at once.
    have hall := decode_append_of_wait h back
    rw [drain_eq_of_decode_eq hall, drain_of_wait h]
    simp [Drained.feed]
  | error d front e h =>
    have hall := decode_append_of_error h back
    have hstop : d.drain (front ++ back)
        = ⟨(d.decode front).decoder, (d.decode front).rest ++ back, [], some e⟩ := by
      rw [drain_of_error (e := e) (by rw [hall]; exact h), hall]
    rw [hstop, drain_of_error h, Drained.feed, drain_of_failed (failed_decode h)]
    simp
  | frame d front f h ih =>
    have hall := decode_append_of_frame h back
    rw [drain_of_frame (f := f) (by rw [hall]; exact h), hall, drain_of_frame h]
    dsimp only
    rw [ih]
    simp [Drained.feed]

theorem feed_feed (r : Drained) (front back : Bytes) :
    (r.feed front).feed back = r.feed (front ++ back) := by
  have happend := drain_append r.decoder (r.rest ++ front) back
  rw [List.append_assoc] at happend
  unfold Drained.feed at happend ⊢
  dsimp only
  rw [happend]
  simp [List.append_assoc, Option.or_assoc]

/-- The pieces of a stream come to the same as the stream, unless the decoder had still
something to do before the first of them. -/
theorem foldl_feed {r : Drained} (hr : r.feed [] = r) (pieces : List Bytes) :
    pieces.foldl Drained.feed r = r.feed pieces.flatten := by
  induction pieces generalizing r with
  | nil => exact hr.symm
  | cons piece pieces ih =>
    have hpiece : (r.feed piece).feed [] = r.feed piece := by
      rw [feed_feed, List.append_nil]
    rw [List.foldl_cons, ih hpiece, feed_feed, List.flatten_cons]

/-- What comes of a stream in pieces, where the decoder is between frames at first. -/
def drainPieces (d : Decoder) (pieces : List Bytes) : Drained :=
  pieces.foldl Drained.feed ⟨d, [], [], none⟩

theorem drainPieces_concat (d : Decoder) (pieces : List Bytes) (piece : Bytes) :
    d.drainPieces (pieces ++ [piece]) = (d.drainPieces pieces).feed piece := by
  simp [drainPieces]

theorem drainPieces_eq {d : Decoder} (hd : d.stage = .start) (pieces : List Bytes) :
    d.drainPieces pieces = d.drain pieces.flatten := by
  have hwait : d.decode [] = ⟨d, [], .ok none⟩ := by
    apply decode_of_lt_demand
    simp [demand, hd]
  have hnil : d.drain [] = ⟨d, [], [], none⟩ := by
    rw [drain_of_wait (by rw [hwait]), hwait]
  have hstart : Drained.feed ⟨d, [], [], none⟩ [] = ⟨d, [], [], none⟩ := by
    simp [Drained.feed, hnil]
  rw [drainPieces, foldl_feed hstart]
  simp [Drained.feed]

/-- If there was an error, then it came with one of the pieces, and not before. -/
theorem exists_piece_of_error {d : Decoder} {e : FrameError} {pieces : List Bytes}
    (h : (d.drainPieces pieces).error = some e) :
    ∃ front piece back, pieces = front ++ piece :: back
      ∧ (d.drainPieces front).error = none
      ∧ (d.drainPieces (front ++ [piece])).error = some e := by
  induction pieces using List.reverseRecOn with
  | nil => cases h
  | append_singleton pieces last ih =>
    rcases hp : (d.drainPieces pieces).error with - | e'
    · exact ⟨pieces, last, [], rfl, hp, h⟩
    · rw [drainPieces_concat, error_feed hp] at h
      obtain ⟨front, piece, back, rfl, hfront, hpiece⟩ := ih (hp.trans h)
      exact ⟨front, piece, back ++ [last], by simp, hfront, hpiece⟩

/-- **The cuts in a stream make no difference.**  A decoder between frames is given a
stream in pieces, and after each piece it is called until it waits or fails.  Frames and
first error are those of the whole stream at once, and without an error so are the octets
that are left and the decoder.

If there is an error, then it comes with one of the pieces, when the same octets are
`consumed` that are consumed of the whole stream.  From then on every call fails, takes
nothing and leaves the decoder as it is. -/
theorem drain_pieces (inUse : ReservedBits) (limit : UInt64) (pieces : List Bytes) :
    let d : Decoder := { inUse, limit }
    let whole := d.drain pieces.flatten
    let fed := d.drainPieces pieces
    fed.frames = whole.frames
    ∧ fed.error = whole.error
    ∧ (whole.error = none → fed.rest = whole.rest ∧ fed.decoder = whole.decoder)
    ∧ ∀ e, whole.error = some e →
        ∃ front piece back, pieces = front ++ piece :: back
          ∧ (d.drainPieces front).error = none
          ∧ let met := d.drainPieces (front ++ [piece])
            met.error = some e ∧ met.frames = whole.frames ∧ met.decoder = whole.decoder
            ∧ (∃ consumed, (front ++ [piece]).flatten = consumed ++ met.rest
              ∧ pieces.flatten = consumed ++ whole.rest)
            ∧ ∀ input, met.decoder.decode input = ⟨met.decoder, input, .error .illegalState⟩ := by
  intro d whole fed
  have heq (pieces : List Bytes) : d.drainPieces pieces = d.drain pieces.flatten :=
    drainPieces_eq rfl pieces
  have hfed : fed = whole := heq pieces
  refine ⟨by rw [hfed], by rw [hfed], fun _ => by rw [hfed]; exact ⟨rfl, rfl⟩, fun e he => ?_⟩
  obtain ⟨front, piece, back, hpieces, hfront, hmet⟩ :=
    exists_piece_of_error (show fed.error = some e by rw [hfed]; exact he)
  refine ⟨front, piece, back, hpieces, hfront, hmet, ?_⟩
  have hdrain := heq (front ++ [piece])
  have hfailed : (d.drain (front ++ [piece]).flatten).decoder.stage = .failed :=
    failed_drain (by rw [← hdrain]; exact hmet)
  -- What comes behind the piece with the error is left, and nothing else changes.
  have hwhole : whole = (d.drain (front ++ [piece]).flatten).feed back.flatten := by
    rw [← drain_append]
    exact congrArg d.drain (by simp [hpieces])
  rw [Drained.feed, drain_of_failed hfailed] at hwhole
  rw [hdrain]
  refine ⟨by simp [hwhole], by rw [hwhole], ?_, decode_of_failed hfailed⟩
  obtain ⟨consumed, hconsumed⟩ := rest_drain d (front ++ [piece]).flatten
  refine ⟨consumed, hconsumed.symm, ?_⟩
  calc pieces.flatten = (front ++ [piece]).flatten ++ back.flatten := by simp [hpieces]
    _ = consumed ++ (d.drain (front ++ [piece]).flatten).rest ++ back.flatten := by
        rw [hconsumed]
    _ = consumed ++ whole.rest := by rw [hwhole, List.append_assoc]

end WebSocket.Decoder
