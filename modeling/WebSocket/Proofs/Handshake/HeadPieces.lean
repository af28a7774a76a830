/-
WebSocket/Proofs/Handshake/HeadPieces.lean

The head of a response out of a stream that arrives in pieces.

A reader is called with one piece after the other until a call has a result (`calls`).  What
it has collected is the stream so far, without an end and within the limit (`Sound`), so the
next call can only come to one of three things: more is wanted, the head is complete, or it is
too long.  Which of them it is depends on the stream up to this piece alone, and not on where
it was cut (`Sound.parse_of_more`, `Sound.parse_of_end`, `Sound.parse_of_tooLarge`).  There is
one induction over the pieces for each of the three, and `read_pieces` puts them together.
-/
import WebSocket.Proofs.Handshake.HeadEnd

namespace WebSocket.Handshake.HeadReader

/-- The calls with the pieces of a stream, up to the first one with a result. -/
def calls (r : HeadReader) : List Bytes → List Parsed
  | [] => []
  | piece :: pieces =>
    let call := r.parse piece
    match call.result with
    | .ok none => call :: calls call.reader pieces
    | _ => [call]

/-- A call that has taken all of its piece and wants more. -/
def Parsed.Waits (call : Parsed) : Prop :=
  call.result = .ok none ∧ call.rest = []

/-- Calls of which only the last one has a result. -/
def EndsWith (calls : List Parsed) (last : Parsed) : Prop :=
  ∃ waits, calls = waits ++ [last] ∧ ∀ call ∈ waits, call.Waits

/-- What a reader has collected has no end and is not too long, and the count is right. -/
structure Sound (r : HeadReader) : Prop where
  tracks : Tracks r.head.toList r.matched
  size_le : r.head.size ≤ r.limit

theorem sound_new (limit : Nat) : Sound { limit } where
  tracks := .nil
  size_le := Nat.zero_le _

/-! ### One call -/

namespace Sound

variable {r : HeadReader} {input : Bytes}

/-- Without an end, and within the limit, all of the piece is taken. -/
theorem parse_of_more (hr : r.Sound) (hends : headEnds (r.head.toList ++ input) = ∅)
    (hlimit : (r.head.toList ++ input).length ≤ r.limit) :
    (r.parse input).Waits ∧ (r.parse input).reader.Sound
      ∧ (r.parse input).reader.head.toList = r.head.toList ++ input
      ∧ (r.parse input).reader.limit = r.limit := by
  obtain ⟨hsome, hnone⟩ := scan_spec hr.tracks input
  have hscan : (scan r.matched 0 input).2 = none := by
    rcases hs : (scan r.matched 0 input).2 with - | n
    · rfl
    · have hmem := (hsome n hs).1
      rw [hends] at hmem
      exact hmem.elim
  have hsize : ¬r.limit < r.head.size + input.length := by
    rw [List.length_append, Array.length_toList] at hlimit
    omega
  have hhead : (r.head ++ input).toList = r.head.toList ++ input := by simp
  rw [parse_of_none hscan, if_neg hsize]
  refine ⟨⟨rfl, rfl⟩, ⟨?_, ?_⟩, hhead, rfl⟩
  · rw [hhead]
    exact hnone hscan
  · rw [← Array.length_toList, hhead]
    exact hlimit

/-- At the first end, if it is within the limit, the head is read, the octets behind it are
left, and the reader is as a new one. -/
theorem parse_of_end (hr : r.Sound) {e : Nat}
    (hend : IsLeast (headEnds (r.head.toList ++ input)) e) (hlimit : e ≤ r.limit) :
    r.parse input = ⟨{ limit := r.limit }, (r.head.toList ++ input).drop e,
      (decode ((r.head.toList ++ input).take e)).map some⟩ := by
  obtain ⟨hsome, hnone⟩ := scan_spec hr.tracks input
  rcases hs : (scan r.matched 0 input).2 with - | n
  · have hmem := hend.1
    rw [(hnone hs).headEnds_eq] at hmem
    exact hmem.elim
  · obtain rfl := hend.unique (hsome n hs)
    have hsize : ¬r.limit < r.head.size + n := by
      rw [← Array.length_toList]
      omega
    rw [parse_of_some hs, if_neg hsize, List.take_length_add_append, List.drop_length_add_append,
      Array.toList_appendList]

/-- If the octets are too many and no end lies within the limit, the head is too long. -/
theorem parse_of_tooLarge (hr : r.Sound) (hlimit : r.limit < (r.head.toList ++ input).length)
    (hends : ∀ e ∈ headEnds (r.head.toList ++ input), r.limit < e) :
    (r.parse input).result = .error (.headTooLarge r.limit) := by
  obtain ⟨hsome, -⟩ := scan_spec hr.tracks input
  rcases hs : (scan r.matched 0 input).2 with - | n
  · rw [List.length_append, Array.length_toList] at hlimit
    rw [parse_of_none hs, if_pos hlimit]
  · have hn := hends _ (hsome n hs).1
    rw [Array.length_toList] at hn
    rw [parse_of_some hs, if_pos hn]

end Sound

/-! ### All pieces -/

/-- A whole head comes to a response or to an error of the head. -/
theorem exists_of_decode (head : Bytes) :
    (∃ response, (decode head).map some = .ok (some response))
      ∨ ∃ cause, (decode head).map some = .error (.http cause) := by
  unfold decode
  rcases Http.ResponseHead.parse head with cause | ⟨parsed, rest⟩
  · exact .inr ⟨cause, rfl⟩
  · exact .inl ⟨_, rfl⟩

theorem calls_of_more {r : HeadReader} {piece : Bytes} (h : (r.parse piece).Waits)
    (pieces : List Bytes) :
    r.calls (piece :: pieces) = r.parse piece :: (r.parse piece).reader.calls pieces := by
  simp only [calls, h.1]

theorem calls_of_result {r : HeadReader} {piece : Bytes} (h : (r.parse piece).result ≠ .ok none)
    (pieces : List Bytes) : r.calls (piece :: pieces) = [r.parse piece] := by
  simp only [calls]

theorem EndsWith.cons {call last : Parsed} {calls : List Parsed} (hcall : call.Waits)
    (h : EndsWith calls last) : EndsWith (call :: calls) last := by
  obtain ⟨waits, rfl, hwaits⟩ := h
  exact ⟨call :: waits, rfl, List.forall_mem_cons.2 ⟨hcall, hwaits⟩⟩

theorem endsWith_singleton (call : Parsed) : EndsWith [call] call :=
  ⟨[], rfl, List.forall_mem_nil _⟩

/-- The last call comes to what one call with the whole stream comes to. -/
theorem exists_getLast?_calls (r : HeadReader) (piece : Bytes) (pieces : List Bytes) :
    ∃ last, (r.calls (piece :: pieces)).getLast? = some last
      ∧ last.result = (r.parse (piece ++ pieces.flatten)).result := by
  induction pieces generalizing r piece with
  | nil =>
    have hcalls : r.calls [piece] = [r.parse piece] := by
      simp only [calls]
      split <;> rfl
    rw [hcalls, List.flatten_nil, List.append_nil]
    exact ⟨_, rfl, rfl⟩
  | cons next pieces ih =>
    rcases hcall : (r.parse piece).result with e | - | response
    · rw [calls_of_result (by rw [hcall]; exact nofun), parse_append_of_error hcall]
      exact ⟨_, rfl, hcall⟩
    · -- More is wanted, so the whole is read as this piece and the others behind it.
      have hcalls : r.calls (piece :: next :: pieces)
          = r.parse piece :: (r.parse piece).reader.calls (next :: pieces) := by
        rw [calls]
        simp only [hcall]
      obtain ⟨last, hlast, hresult⟩ := ih (r.parse piece).reader next
      refine ⟨last, ?_, ?_⟩
      · rw [hcalls, List.getLast?_cons, hlast]
        rfl
      · rw [hresult, (parse_append_of_more hcall _).1, List.flatten_cons]
    · rw [calls_of_result (by rw [hcall]; exact nofun), parse_append_of_response hcall]
      exact ⟨_, rfl, rfl⟩

variable {r : HeadReader} {pieces : List Bytes}

/-- A stream with an end within the limit. -/
theorem Sound.calls_of_end (hr : r.Sound) {e : Nat}
    (hend : IsLeast (headEnds (r.head.toList ++ pieces.flatten)) e) (hlimit : e ≤ r.limit) :
    ∃ last, EndsWith (r.calls pieces) last
      ∧ last.result = (decode ((r.head.toList ++ pieces.flatten).take e)).map some
      ∧ last.rest ++ (pieces.drop (r.calls pieces).length).flatten
        = (r.head.toList ++ pieces.flatten).drop e
      ∧ last.reader = { limit := r.limit } := by
  induction pieces generalizing r with
  | nil =>
    have hmem := hend.1
    rw [List.flatten_nil, List.append_nil, hr.tracks.headEnds_eq] at hmem
    exact hmem.elim
  | cons piece pieces ih =>
    rw [List.flatten_cons, ← List.append_assoc] at hend ⊢
    by_cases he : e ≤ (r.head.toList ++ piece).length
    · -- The end comes with this piece.
      have hcall := hr.parse_of_end ((isLeast_headEnds_append he _).1 hend) hlimit
      have hresult : (r.parse piece).result ≠ .ok none := by
        rw [hcall]
        rcases decode ((r.head.toList ++ piece).take e) with _ | _ <;> exact nofun
      rw [calls_of_result hresult, List.take_append_of_le_length he,
        List.drop_append_of_le_length he]
      refine ⟨r.parse piece, endsWith_singleton _, ?_, ?_, ?_⟩
      · rw [hcall]
      · rw [hcall]
        rfl
      · rw [hcall]
    · -- It comes later, so the call takes all of the piece.
      have hnone : headEnds (r.head.toList ++ piece) = ∅ := by
        refine Set.eq_empty_iff_forall_notMem.2 fun n hn => ?_
        have hle := hend.2 ((mem_headEnds_append hn.1 _).2 hn)
        exact he (hle.trans hn.1)
      obtain ⟨hwaits, hsound, hhead, hlimit'⟩ := hr.parse_of_more hnone (by omega)
      rw [← hhead] at hend ⊢
      rw [← hlimit'] at hlimit ⊢
      obtain ⟨last, hends, hlast⟩ := ih hsound hend hlimit
      rw [calls_of_more hwaits]
      exact ⟨last, hends.cons hwaits, hlast⟩

/-- A stream that exceeds the limit before an end. -/
theorem Sound.calls_of_tooLarge (hr : r.Sound)
    (hlimit : r.limit < (r.head.toList ++ pieces.flatten).length)
    (hends : ∀ e ∈ headEnds (r.head.toList ++ pieces.flatten), r.limit < e) :
    ∃ last, EndsWith (r.calls pieces) last ∧ last.result = .error (.headTooLarge r.limit) := by
  induction pieces generalizing r with
  | nil =>
    have hsize := hr.size_le
    rw [List.flatten_nil, List.append_nil, Array.length_toList] at hlimit
    omega
  | cons piece pieces ih =>
    rw [List.flatten_cons, ← List.append_assoc] at hlimit hends
    have hfront : ∀ e ∈ headEnds (r.head.toList ++ piece), r.limit < e :=
      fun e he => hends e ((mem_headEnds_append he.1 _).2 he)
    by_cases hl : r.limit < (r.head.toList ++ piece).length
    · have hcall := hr.parse_of_tooLarge hl hfront
      have hresult : (r.parse piece).result ≠ .ok none := by
        rw [hcall]
        exact nofun
      rw [calls_of_result hresult]
      exact ⟨_, endsWith_singleton _, hcall⟩
    · have hnone : headEnds (r.head.toList ++ piece) = ∅ := by
        refine Set.eq_empty_iff_forall_notMem.2 fun n hn => hl ?_
        exact (hfront n hn).trans_le hn.1
      obtain ⟨hwaits, hsound, hhead, hlimit'⟩ := hr.parse_of_more hnone (by omega)
      rw [← hhead, ← hlimit'] at hlimit hends
      obtain ⟨last, hlast, hresult⟩ := ih hsound hlimit hends
      rw [calls_of_more hwaits]
      exact ⟨last, hlast.cons hwaits, by rw [hresult, hlimit']⟩

/-- A stream without an end and within the limit. -/
theorem Sound.calls_of_more (hr : r.Sound)
    (hlimit : (r.head.toList ++ pieces.flatten).length ≤ r.limit)
    (hends : headEnds (r.head.toList ++ pieces.flatten) = ∅) :
    (r.calls pieces).length = pieces.length ∧ ∀ call ∈ r.calls pieces, call.Waits := by
  induction pieces generalizing r with
  | nil => exact ⟨rfl, List.forall_mem_nil _⟩
  | cons piece pieces ih =>
    rw [List.flatten_cons, ← List.append_assoc] at hlimit hends
    have hnone : headEnds (r.head.toList ++ piece) = ∅ := by
      refine Set.eq_empty_iff_forall_notMem.2 fun n hn => ?_
      have hmem := (mem_headEnds_append hn.1 pieces.flatten).2 hn
      rw [hends] at hmem
      exact hmem
    have hl : (r.head.toList ++ piece).length ≤ r.limit := by
      rw [List.length_append] at hlimit
      omega
    obtain ⟨hwaits, hsound, hhead, hlimit'⟩ := hr.parse_of_more hnone hl
    rw [← hhead] at hlimit hends
    rw [← hlimit'] at hlimit
    obtain ⟨hlength, hall⟩ := ih hsound hlimit hends
    rw [HeadReader.calls_of_more hwaits, List.length_cons, List.length_cons, hlength]
    exact ⟨rfl, List.forall_mem_cons.2 ⟨hwaits, hall⟩⟩

/-- **The cuts in a stream make no difference to its head.**  A new reader is called with the
pieces of a stream, up to the first call with a result.

If the first end of a head lies within the limit, then the result is what `decode` makes of
the octets up to it, a response or an error of the head.  Exactly these octets were taken: the
earlier calls have taken all of their pieces, and what is left of the last piece is the stream
behind the head, with the pieces that were not read.  The reader is as new, so that it reads
another head in the same way.

If the first end lies beyond the limit, or there is none in more octets than the limit, then
the result is that the head is too long.  Otherwise there is no result, and every call has
taken all of its piece.  In any case the last call comes to the same as a call with the whole
stream. -/
theorem read_pieces (limit : Nat) (pieces : List Bytes) :
    let start : HeadReader := { limit }
    let stream := pieces.flatten
    (∀ e, IsLeast (headEnds stream) e → e ≤ limit → ∃ last, EndsWith (start.calls pieces) last
        ∧ last.result = (decode (stream.take e)).map some
        ∧ ((∃ response, last.result = .ok (some response))
          ∨ ∃ cause, last.result = .error (.http cause))
        ∧ last.rest ++ (pieces.drop (start.calls pieces).length).flatten = stream.drop e
        ∧ last.reader = start)
      ∧ ((∃ e, IsLeast (headEnds stream) e ∧ limit < e)
          ∨ headEnds stream = ∅ ∧ limit < stream.length →
        ∃ last, EndsWith (start.calls pieces) last
          ∧ last.result = .error (.headTooLarge limit))
      ∧ (headEnds stream = ∅ → stream.length ≤ limit →
        (start.calls pieces).length = pieces.length
          ∧ ∀ call ∈ start.calls pieces, call.Waits)
      ∧ ∀ last ∈ (start.calls pieces).getLast?, last.result = (start.parse stream).result := by
  intro start stream
  have hstart : start.Sound := sound_new limit
  refine ⟨fun e hend hlimit => ?_, fun hlong => ?_, fun hends hlimit => ?_, fun last hlast => ?_⟩
  · obtain ⟨last, hlast, hresult, hrest, hreader⟩ := hstart.calls_of_end hend hlimit
    refine ⟨last, hlast, hresult, ?_, hrest, hreader⟩
    rw [hresult]
    exact exists_of_decode (stream.take e)
  · apply hstart.calls_of_tooLarge
    · rcases hlong with ⟨e, hend, he⟩ | ⟨-, hlength⟩
      · exact he.trans_le hend.1.1
      · exact hlength
    · intro n hn
      rcases hlong with ⟨e, hend, he⟩ | ⟨hnone, -⟩
      · exact he.trans_le (hend.2 hn)
      · rw [show headEnds (start.head.toList ++ pieces.flatten) = ∅ from hnone] at hn
        exact hn.elim
  · exact hstart.calls_of_more hlimit hends
  · rcases pieces with - | ⟨piece, pieces⟩
    · cases hlast
    · obtain ⟨last', hlast', hresult⟩ := exists_getLast?_calls start piece pieces
      obtain rfl := Option.some.inj (hlast'.symm.trans hlast)
      exact hresult

/-- A head whose end is spread over three pieces, behind a false start of it, and with octets
of the channel behind it. -/
theorem read_pieces_of_false_start :
    let pieces : List Bytes :=
      [Bytes.ofLatin "\r\nHTTP/1.1 101\r\n\r", [0x0d, 0x0a, 0x0d], [0x0a, 0x81], [0x00]]
    let start : HeadReader := { limit := 21 }
    IsLeast (headEnds pieces.flatten) 21 ∧ 21 ≤ 21
      ∧ ∃ last, EndsWith (start.calls pieces) last
        ∧ last.result = .error (.http .newLine)
        ∧ last.rest ++ (pieces.drop (start.calls pieces).length).flatten = [0x81, 0x00]
        ∧ last.reader = start := by
  intro pieces start
  have hend : IsLeast (headEnds pieces.flatten) 21 := by
    refine ⟨⟨by decide +kernel, by decide +kernel⟩, fun n hn => ?_⟩
    by_contra hlt
    have hnone : ∀ n < 21, ¬endOfHead <:+ pieces.flatten.take n := by decide +kernel
    exact hnone n (by omega) hn.2
  obtain ⟨hresult, -⟩ := read_pieces 21 pieces
  obtain ⟨last, hlast, hdecode, -, hrest, hreader⟩ := hresult 21 hend le_rfl
  refine ⟨hend, le_rfl, last, hlast, ?_, ?_, hreader⟩
  · rw [hdecode]
    decide +kernel
  · rw [hrest]
    decide +kernel

end WebSocket.Handshake.HeadReader
