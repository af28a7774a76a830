/-
WebSocket/Proofs/Handshake/HeadOctets.lean

What a reader takes from the stream for a head, and what is read of it.

A reader takes all octets up to the first 0D 0A 0D 0A, and the head is then read from these.
But a head is over with its first empty line, also where lines end in a line feed alone.  So
the octets that are taken are those of the head and further ones, which are dropped:
`taken_of_response` says which streams have none of these, and `octets_swallowed` that there
are others.
-/
import WebSocket.Proofs.Handshake.HeadPieces
import WebSocket.Proofs.Http.ResponseHead

namespace WebSocket.Handshake

open Http.ResponseHead

/-- Two ends of lines are the end of a head for a reader, if each line feed in it has a
carriage return in front. -/
theorem endOfHead_suffix {body l l' : Bytes} (hl : IsLineEnd l) (hl' : IsLineEnd l')
    (hfeed : ∀ a b, body ++ l ++ l' = a ++ 0x0a :: b → a.getLast? = some 0x0d) :
    endOfHead <:+ body ++ l ++ l' := by
  rcases hl' with rfl | rfl
  · rcases hl with rfl | rfl
    · exact ⟨body, by simp [endOfHead]⟩
    · -- The carriage return in front of the line feed is the last octet of the body.
      have hlast := hfeed body [0x0d, 0x0a] (by simp)
      obtain ⟨body, rfl⟩ := List.getLast?_eq_some_iff.1 hlast
      exact ⟨body, by simp [endOfHead]⟩
  · -- A line feed alone would have the end of the other line in front.
    have hlast := hfeed (body ++ l) [] (by simp)
    rcases hl with rfl | rfl
    · simp at hlast
    · simp at hlast

namespace HeadReader

/-- What the octets of a response are for a reader and for the reading of the head. -/
theorem taken_of_decode {stream : Bytes} {e : Nat} (hend : IsLeast (headEnds stream) e)
    {response : Response} (h : decode (stream.take e) = .ok response) :
    ∃ front swallowed, stream.take e = front ++ swallowed
      ∧ Takes Http.ResponseHead.parse front response.toResponseHead
      ∧ (swallowed = [] ↔ endOfHead <:+ front)
      ∧ ((∀ a b, front = a ++ 0x0a :: b → a.getLast? = some 0x0d) → swallowed = []) := by
  unfold decode at h
  rcases hparse : Http.ResponseHead.parse (stream.take e) with cause | ⟨head, swallowed⟩
  · rw [hparse] at h
    cases h
  · rw [hparse] at h
    cases h
    obtain ⟨body, l, l', hl, hl', htaken, htakes⟩ := exists_of_parse hparse
    have hiff : swallowed = [] ↔ endOfHead <:+ body ++ l ++ l' := by
      constructor
      · rintro rfl
        rw [List.append_nil] at htaken
        rw [← htaken]
        exact hend.1.2
      · -- The head of the stream would have an end in front of what is swallowed.
        intro hsuffix
        have hlength := congrArg List.length htaken
        rw [List.length_take_of_le hend.1.1, List.length_append] at hlength
        have hle : (body ++ l ++ l').length ≤ e := by omega
        have hfront : stream.take (body ++ l ++ l').length = body ++ l ++ l' :=
          calc stream.take (body ++ l ++ l').length
              = (stream.take e).take (body ++ l ++ l').length := by
                rw [List.take_take, Nat.min_eq_left hle]
            _ = body ++ l ++ l' := by rw [htaken, List.take_left]
        have hmem : (body ++ l ++ l').length ∈ headEnds stream :=
          ⟨hle.trans hend.1.1, by rwa [hfront]⟩
        have hleast := hend.2 hmem
        exact List.length_eq_zero_iff.1 (by omega)
    exact ⟨body ++ l ++ l', swallowed, htaken, htakes, hiff,
      fun hfeed => hiff.2 (endOfHead_suffix hl hl' hfeed)⟩

theorem EndsWith.last_eq {calls : List Parsed} {last last' : Parsed} (h : EndsWith calls last)
    (h' : EndsWith calls last') : last = last' := by
  obtain ⟨waits, rfl, -⟩ := h
  obtain ⟨waits', heq, -⟩ := h'
  exact List.singleton_inj.1 (List.append_inj' heq rfl).2

/-- A response comes of the octets up to the first end, which lies within the limit. -/
theorem exists_end_of_response {limit : Nat} {pieces : List Bytes} {last : Parsed}
    {response : Response} (hlast : EndsWith (calls { limit } pieces) last)
    (hresult : last.result = .ok (some response)) :
    ∃ e, IsLeast (headEnds pieces.flatten) e ∧ decode (pieces.flatten.take e) = .ok response
      ∧ last.rest ++ (pieces.drop (calls { limit } pieces).length).flatten
        = pieces.flatten.drop e := by
  have hnew : Sound { limit } := sound_new limit
  rcases headEnds_eq_empty_or_isLeast pieces.flatten with hnone | ⟨e, hend⟩
  · by_cases hlimit : pieces.flatten.length ≤ limit
    · -- Every call would want more.
      obtain ⟨-, hwaits⟩ := @Sound.calls_of_more _ pieces hnew hlimit hnone
      obtain ⟨waits, hcalls, -⟩ := hlast
      have hwait := hwaits last (by rw [hcalls]; simp)
      rw [hwait.1] at hresult
      cases hresult
    · have hends : ∀ e ∈ headEnds pieces.flatten, limit < e := by
        rw [hnone]
        exact fun e he => he.elim
      obtain ⟨last', hlast', herror⟩ :=
        @Sound.calls_of_tooLarge _ pieces hnew (Nat.lt_of_not_le hlimit) hends
      rw [hlast.last_eq hlast', herror] at hresult
      cases hresult
  · by_cases hlimit : e ≤ limit
    · obtain ⟨last', hlast', hdecode, hrest, -⟩ := @Sound.calls_of_end _ pieces hnew e hend hlimit
      obtain rfl := hlast.last_eq hlast'
      refine ⟨e, hend, ?_, hrest⟩
      have hmap : .ok (some response) = (decode (pieces.flatten.take e)).map some :=
        hresult.symm.trans hdecode
      rcases hd : decode (pieces.flatten.take e) with cause | response'
      · rw [hd] at hmap
        cases hmap
      · rw [hd] at hmap
        cases hmap
        rfl
    · have hends : ∀ n ∈ headEnds pieces.flatten, limit < n :=
        fun n hn => (Nat.lt_of_not_le hlimit).trans_le (hend.2 hn)
      obtain ⟨last', hlast', herror⟩ :=
        @Sound.calls_of_tooLarge _ pieces hnew ((hends e hend.1).trans_le hend.1.1) hends
      rw [hlast.last_eq hlast', herror] at hresult
      cases hresult

/-- **What is taken for a response.**  A new reader is called with the pieces of a stream, and
the result is a response.  Then what was taken from the stream are the octets from which the
head is read, whatever follows them, and behind these further ones, which are swallowed.  None
are swallowed if and only if the octets of the head end with 0D 0A 0D 0A.  So it is if each
line feed in it has a carriage return in front. -/
theorem taken_of_response (limit : Nat) (pieces : List Bytes) {last : Parsed} {response : Response}
    (hlast : EndsWith (calls { limit } pieces) last) (hresult : last.result = .ok (some response)) :
    ∃ front swallowed,
      pieces.flatten = front ++ swallowed
        ++ (last.rest ++ (pieces.drop (calls { limit } pieces).length).flatten)
      ∧ (∀ back, Http.ResponseHead.parse (front ++ back) = .ok (response.toResponseHead, back))
      ∧ (swallowed = [] ↔ endOfHead <:+ front)
      ∧ ((∀ a b, front = a ++ 0x0a :: b → a.getLast? = some 0x0d) → swallowed = []) := by
  obtain ⟨e, hend, hdecode, hrest⟩ := exists_end_of_response hlast hresult
  obtain ⟨front, swallowed, htaken, hparse, hiff, hfeed⟩ := taken_of_decode hend hdecode
  refine ⟨front, swallowed, ?_, hparse, hiff, hfeed⟩
  rw [hrest, ← htaken, List.take_append_drop]

/-- A head whose lines end with a carriage return and a line feed, in two pieces.  Nothing is
swallowed, and the octet of a frame is left. -/
theorem taken_of_response_of_two_pieces :
    let pieces : List Bytes := [Bytes.ofLatin "HTTP/1.1 101 A\r\n\r", [0x0a, 0x81], [0x00]]
    let response : Response :=
      { version := .http11, status := 101, reason := "A", headers := {} }
    let first : Bytes := Bytes.ofLatin "HTTP/1.1 101 A\r\n\r"
    let last := (parse { limit := 18 } first).reader.parse [0x0a, 0x81]
    EndsWith (calls { limit := 18 } pieces) last ∧ last.result = .ok (some response)
      ∧ ∃ front, pieces.flatten = front ++ [] ++ (last.rest ++ [0x00])
        ∧ Http.ResponseHead.parse front = .ok (response.toResponseHead, []) := by
  intro pieces response first last
  have hmore : (parse { limit := 18 } first).Waits := by
    refine ⟨?_, ?_⟩
    · decide +kernel
    · decide +kernel
  have hresult : last.result = .ok (some response) := by decide +kernel
  have hcalls : calls { limit := 18 } pieces = [parse { limit := 18 } first] ++ [last] := by
    rw [calls_of_more hmore, calls_of_result]
    · rfl
    · rw [show ((parse { limit := 18 } first).reader.parse [0x0a, 0x81]).result = _ from hresult]
      exact nofun
  have hlast : EndsWith (calls { limit := 18 } pieces) last :=
    ⟨_, hcalls, List.forall_mem_singleton.2 hmore⟩
  obtain ⟨front, swallowed, hflatten, hparse, -, -⟩ := taken_of_response 18 pieces hlast hresult
  have hback : last.rest ++ (pieces.drop (calls { limit := 18 } pieces).length).flatten
      = last.rest ++ [0x00] := by
    rw [hcalls]
    rfl
  rw [hback] at hflatten
  -- The reading of the octets that were taken says what is swallowed.
  have htaken : front ++ swallowed = Bytes.ofLatin "HTTP/1.1 101 A\r\n\r\n" := by
    refine List.append_cancel_right (hflatten.symm.trans ?_)
    decide +kernel
  have hswallowed : swallowed = [] := by
    have hread : Http.ResponseHead.parse (front ++ swallowed)
        = .ok (response.toResponseHead, []) := by
      rw [htaken]
      decide +kernel
    exact congrArg Prod.snd (Except.ok.inj ((hparse swallowed).symm.trans hread))
  subst hswallowed
  refine ⟨hlast, hresult, front, hflatten, ?_⟩
  rw [← List.append_nil front]
  exact hparse []

/-- **Octets of the channel can be swallowed.**  The lines of a head end in a line feed alone,
and a frame and at last 0D 0A 0D 0A follow.  The head is read from the octets in front of the
frame, but the reader has taken all. -/
theorem octets_swallowed :
    let head : Bytes := Bytes.ofLatin "HTTP/1.1 101 A\n\n"
    let frame : Bytes := [0x81, 0x00]
    let call := parse { limit := 8192 } (head ++ frame ++ endOfHead)
    let response : Response :=
      { version := .http11, status := 101, reason := "A", headers := {} }
    call.result = .ok (some response) ∧ call.rest = []
      ∧ Http.ResponseHead.parse (head ++ frame ++ endOfHead)
        = .ok (response.toResponseHead, frame ++ endOfHead) := by
  refine ⟨?_, ?_, ?_⟩
  · decide +kernel
  · decide +kernel
  · decide +kernel

end HeadReader

end WebSocket.Handshake
