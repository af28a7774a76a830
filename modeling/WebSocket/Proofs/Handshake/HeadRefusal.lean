/-
WebSocket/Proofs/Handshake/HeadRefusal.lean

Readers that are called again behind a piece that was too long.

A refused piece stays with the caller, and none of it is added to the head.  But the reader has
gone over it, and the count of the octets that end a head goes on from there.  So the head is made
of the pieces that were taken, while the count belongs to all that were offered (`Called`,
`Called.keeps`).  For later calls it is as if the refused octets stood in the stream: an end of a
head is found where it lies in what was offered (`Keeps.exists_parse_of_no_end`,
`Keeps.parse_of_end`).

Hence a refusal changes nothing exactly if the count comes back to what it was (`refused_piece`).
It need not, and then a head can be read that has no end (`response_without_end`).
-/
import WebSocket.Proofs.Handshake.HeadPieces

namespace WebSocket.Handshake.HeadReader

/-! ### Pieces that were taken or refused -/

/-- The octets of all pieces. -/
def offered (pieces : List (Bytes × Bool)) : Bytes :=
  pieces.flatMap Prod.fst

/-- The octets of the pieces that were taken. -/
def taken (pieces : List (Bytes × Bool)) : Bytes :=
  (pieces.filter Prod.snd).flatMap Prod.fst

theorem offered_concat (pieces : List (Bytes × Bool)) (piece : Bytes) (b : Bool) :
    offered (pieces ++ [(piece, b)]) = offered pieces ++ piece := by
  simp [offered]

theorem taken_concat (pieces : List (Bytes × Bool)) (piece : Bytes) (b : Bool) :
    taken (pieces ++ [(piece, b)]) = taken pieces ++ if b then piece else [] := by
  cases b <;> simp [taken]

/-- What was taken is all that was offered, unless a piece was refused. -/
theorem taken_eq_offered {pieces : List (Bytes × Bool)} (h : ∀ p ∈ pieces, p.2) :
    taken pieces = offered pieces := by
  rw [taken, offered, List.filter_eq_self.2 h]

/-- The readers that calls lead to, with the pieces since the last complete head and whether they
were taken.  A piece that was refused with an end of the head in it is not among them: no reader
can be called behind that. -/
inductive Called (limit : Nat) : List (Bytes × Bool) → HeadReader → Prop
  | new : Called limit [] { limit }
  | more {pieces : List (Bytes × Bool)} {r : HeadReader} {piece : Bytes}
      (hr : Called limit pieces r) (h : (r.parse piece).result = .ok none) :
      Called limit (pieces ++ [(piece, true)]) (r.parse piece).reader
  | refused {pieces : List (Bytes × Bool)} {r : HeadReader} {piece : Bytes}
      (hr : Called limit pieces r) (hends : headEnds (offered pieces ++ piece) = ∅)
      (h : (r.parse piece).result = .error (.headTooLarge limit)) :
      Called limit (pieces ++ [(piece, false)]) (r.parse piece).reader
  | complete {pieces : List (Bytes × Bool)} {r : HeadReader} {piece head : Bytes}
      (hr : Called limit pieces r) (h : (r.parse piece).result = (decode head).map some) :
      Called limit [] (r.parse piece).reader

/-- The head is what was taken, and the count belongs to what was offered. -/
structure Keeps (limit : Nat) (pieces : List (Bytes × Bool)) (r : HeadReader) : Prop where
  limit_eq : r.limit = limit
  head_eq : r.head.toList = taken pieces
  size_le : r.head.size ≤ limit
  tracks : Tracks (offered pieces) r.matched

/-! ### One call -/

namespace Keeps

variable {limit : Nat} {pieces : List (Bytes × Bool)} {r : HeadReader} {piece : Bytes}

/-- Without an end in what was offered, the piece is taken if there is room for it. -/
theorem exists_parse_of_no_end (hr : r.Keeps limit pieces)
    (hends : headEnds (offered pieces ++ piece) = ∅) :
    ∃ m, Tracks (offered pieces ++ piece) m
      ∧ r.parse piece = if limit < r.head.size + piece.length then
          ⟨{ r with matched := m }, piece, .error (.headTooLarge limit)⟩
        else ⟨{ r with head := r.head ++ piece, matched := m }, [], .ok none⟩ := by
  obtain ⟨hsome, hnone⟩ := scan_spec hr.tracks piece
  have hscan : (scan r.matched 0 piece).2 = none := by
    rcases hs : (scan r.matched 0 piece).2 with - | n
    · rfl
    · have hmem := (hsome n hs).1
      rw [hends] at hmem
      exact hmem.elim
  refine ⟨_, hnone hscan, ?_⟩
  rw [parse_of_none hscan, hr.limit_eq]

/-- At the first end in what was offered, the head is read if there is room for it. -/
theorem parse_of_end (hr : r.Keeps limit pieces) {n : Nat}
    (hend : IsLeast (headEnds (offered pieces ++ piece)) ((offered pieces).length + n)) :
    r.parse piece = if limit < r.head.size + n then
        ⟨{ r with matched := (scan r.matched 0 piece).1 }, piece, .error (.headTooLarge limit)⟩
      else ⟨{ limit }, piece.drop n, (decode (taken pieces ++ piece.take n)).map some⟩ := by
  obtain ⟨hsome, hnone⟩ := scan_spec hr.tracks piece
  rcases hs : (scan r.matched 0 piece).2 with - | k
  · have hmem := hend.1
    rw [(hnone hs).headEnds_eq] at hmem
    exact hmem.elim
  · have hk := hend.unique (hsome k hs)
    obtain rfl : n = k := by omega
    rw [parse_of_some hs, hr.limit_eq, Array.toList_appendList, hr.head_eq]

end Keeps

/-! ### All calls -/

theorem Called.keeps {limit : Nat} {pieces : List (Bytes × Bool)} {r : HeadReader}
    (hr : Called limit pieces r) : r.Keeps limit pieces := by
  induction hr with
  | new => exact ⟨rfl, rfl, Nat.zero_le _, .nil⟩
  | @more pieces r piece _ h ih =>
    obtain ⟨hscan, hsize⟩ := scan_of_more h
    obtain ⟨-, hnone⟩ := scan_spec ih.tracks piece
    have hhead : (r.head ++ piece).toList = r.head.toList ++ piece := by simp
    have hlimit := ih.limit_eq
    rw [parse_of_none hscan, if_neg hsize]
    refine ⟨ih.limit_eq, ?_, ?_, ?_⟩
    · rw [taken_concat, hhead, ih.head_eq]
      rfl
    · rw [← Array.length_toList, hhead, List.length_append, Array.length_toList]
      omega
    · rw [offered_concat]
      exact hnone hscan
  | @refused pieces r piece _ hends h ih =>
    obtain ⟨m, htracks, hparse⟩ := ih.exists_parse_of_no_end hends
    rw [hparse] at h ⊢
    split_ifs at h ⊢ with hsize
    · refine ⟨ih.limit_eq, ?_, ih.size_le, ?_⟩
      · rw [taken_concat, if_neg (by decide), List.append_nil]
        exact ih.head_eq
      · rw [offered_concat]
        exact htracks
  | @complete pieces r piece head _ h ih =>
    -- The result is that of a whole head, so the reader is as a new one.
    have hreader : (r.parse piece).reader = { limit } := by
      rcases hs : (scan r.matched 0 piece).2 with - | n
      · exfalso
        rw [parse_of_none hs] at h
        rcases exists_of_decode head with ⟨_, hd⟩ | ⟨_, hd⟩
        all_goals
          rw [hd] at h
          split_ifs at h
          all_goals cases h
      · rw [parse_of_some hs] at h ⊢
        split_ifs at h ⊢
        · rcases exists_of_decode head with ⟨_, hd⟩ | ⟨_, hd⟩
          all_goals
            rw [hd] at h
            cases h
        · rw [← ih.limit_eq]
    rw [hreader]
    exact ⟨rfl, rfl, Nat.zero_le _, .nil⟩

variable {limit : Nat} {pieces : List (Bytes × Bool)} {r : HeadReader} {piece : Bytes}

/-- **A piece that is refused.**  It is left as it is, and of the reader nothing but the count may
be another one.

* The head is made of the pieces that were taken.  The count is that of all octets that were
  offered since the last head, so it is that of the head as long as no piece was refused.
* The reader is the same as before exactly if the refused octets bring the count back to what it
  was.
* What a later call comes to depends on where the first end of a head lies in what was offered,
  with the refused octets among it, and on the room that the head has left. -/
theorem refused_piece (hr : Called limit pieces r)
    (hends : headEnds (offered pieces ++ piece) = ∅)
    (hrefused : (r.parse piece).result = .error (.headTooLarge limit)) :
    let refused := r.parse piece
    let octets := offered pieces ++ piece
    (refused.rest = piece ∧ refused.reader = { r with matched := refused.reader.matched })
      ∧ (r.head.toList = taken pieces ∧ IsGreatest (borders (offered pieces)) r.matched
        ∧ ((∀ p ∈ pieces, p.2) → IsGreatest (borders r.head.toList) r.matched))
      ∧ (refused.reader = r ↔ IsGreatest (borders octets) r.matched)
      ∧ (∀ next, headEnds (octets ++ next) = ∅ → (refused.reader.parse next).result
          = if limit < r.head.size + next.length then .error (.headTooLarge limit) else .ok none)
      ∧ ∀ next n, IsLeast (headEnds (octets ++ next)) (octets.length + n) →
          (refused.reader.parse next).result
            = if limit < r.head.size + n then .error (.headTooLarge limit)
              else (decode (r.head.toList ++ next.take n)).map some := by
  intro refused octets
  have hkeeps := hr.keeps
  have hbehind : Keeps limit (pieces ++ [(piece, false)]) refused.reader :=
    (hr.refused hends hrefused).keeps
  have hoctets : offered (pieces ++ [(piece, false)]) = octets := offered_concat ..
  have htaken : taken (pieces ++ [(piece, false)]) = r.head.toList := by
    rw [taken_concat, if_neg (by decide), List.append_nil, hkeeps.head_eq]
  -- The call has moved the count, and nothing else.
  obtain ⟨m, htracks, hparse⟩ := hkeeps.exists_parse_of_no_end hends
  have hcall : refused = ⟨{ r with matched := m }, piece, .error (.headTooLarge limit)⟩ := by
    have hresult : refused.result = _ := hrefused
    rw [show refused = _ from hparse] at hresult ⊢
    split_ifs at hresult ⊢
    rfl
  have hreader : refused.reader = { r with matched := m } := congrArg Parsed.reader hcall
  refine ⟨⟨congrArg Parsed.rest hcall, by rw [hreader]⟩,
    ⟨hkeeps.head_eq, hkeeps.tracks.greatest, fun hall => ?_⟩, ?_, fun next hnext => ?_,
    fun next n hnext => ?_⟩
  · rw [hkeeps.head_eq, taken_eq_offered hall]
    exact hkeeps.tracks.greatest
  · rw [hreader]
    constructor
    · intro heq
      rw [← congrArg HeadReader.matched heq]
      exact htracks.greatest
    · intro hgreatest
      rw [htracks.greatest.unique hgreatest]
  · rw [← hoctets] at hnext
    obtain ⟨m', -, hparse'⟩ := hbehind.exists_parse_of_no_end hnext
    rw [hparse', hreader]
    split_ifs <;> rfl
  · rw [← hoctets] at hnext
    rw [hbehind.parse_of_end hnext, htaken, hreader]
    split_ifs <;> rfl

/-- The count behind octets that have no end. -/
theorem tracks_of_scan {octets : Bytes} {m : Nat} (h : scan 0 0 octets = (m, none)) :
    Tracks octets m := by
  have htracks := (scan_spec .nil octets).2 (by rw [h])
  rwa [h] at htracks

/-- Behind a piece that was taken and one that was refused, a piece that brings the count back to
what it was. -/
theorem refused_piece_of_same_count :
    let line := Bytes.ofLatin "HTTP/1.1 101 A\r\n"
    let r : HeadReader := { head := line.toArray, matched := 1, limit := 20 }
    let pieces := [(line, true), (Bytes.ofLatin "1234\r", false)]
    let piece := Bytes.ofLatin "\nabc\r"
    Called 20 pieces r ∧ headEnds (offered pieces ++ piece) = ∅
      ∧ (r.parse piece).result = .error (.headTooLarge 20) ∧ (r.parse piece).reader = r := by
  intro line r pieces piece
  have hfirst : Called 20 [(line, true)] { head := line.toArray, matched := 2, limit := 20 } :=
    Called.new.more rfl
  have hends : headEnds (line ++ Bytes.ofLatin "1234\r") = ∅ :=
    (tracks_of_scan (m := 1) (by decide +kernel)).headEnds_eq
  have hr : Called 20 pieces r := hfirst.refused hends rfl
  have htracks : Tracks (offered pieces ++ piece) 1 := tracks_of_scan (by decide +kernel)
  have hrefused : (r.parse piece).result = .error (.headTooLarge 20) := by decide +kernel
  obtain ⟨-, -, hsame, -⟩ := refused_piece hr htracks.headEnds_eq hrefused
  exact ⟨hr, htracks.headEnds_eq, hrefused, hsame.2 htracks.greatest⟩

/-- **A head that has no end.**  The octets 0D 0A 0D at the end of a refused piece are counted,
and a line feed makes them up to an end, though what was taken holds none. -/
theorem response_without_end :
    let line := Bytes.ofLatin "HTTP/1.1 101 A\r\n"
    let r : HeadReader := { head := line.toArray, matched := 2, limit := 20 }
    let piece := Bytes.ofLatin "xxxxx\r\n\r"
    let refused := r.parse piece
    Called 20 [(line, true)] r ∧ headEnds (line ++ piece) = ∅
      ∧ refused.result = .error (.headTooLarge 20)
      ∧ refused.reader = { r with matched := 3 } ∧ refused.reader ≠ r
      ∧ (r.parse [0x0a]).result = .ok none
      ∧ ∃ response, (refused.reader.parse [0x0a]).result = .ok (some response) := by
  intro line r piece refused
  have htracks : Tracks (line ++ piece) 3 := tracks_of_scan (by decide +kernel)
  let response : Response :=
    { version := .http11, status := 101, reason := "A", headers := {} }
  exact ⟨Called.new.more rfl, htracks.headEnds_eq, by decide +kernel, by decide +kernel,
    by decide +kernel, by decide +kernel, response, by decide +kernel⟩

end WebSocket.Handshake.HeadReader
